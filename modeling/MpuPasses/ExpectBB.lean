import MpuPasses.BlockSizes

/-!
# `expect_BB.txt`

`BB_check1.py` writes a record for every function: its name, the size of each of its blocks and a
blank line. `Addr_info.py` reads the file with a cursor that two inner loops move: the first looks
for the next name, the second takes sizes up to a blank line and leaves the cursor there. Behind the
last record this makes one turn more, which finds no name and takes the last record once again
(`readRecords_eq`).
-/

namespace MpuPasses

open Chars

/-! ## The file -/

/-- A function and the sizes of its blocks. -/
structure BBRecord where
  name : Str
  bbSize : List ℤ
  oneLine : OneLine name := by decide
  trimmed : strip name = name := by decide
  nonempty : bbSize ≠ [] := by decide

/-- The line of block `j + 1`. -/
def sizeLine (size : ℤ) (j : ℕ) : Str :=
  "BB".toList ++ pyStr (j + 1) ++ " size".toList ++ ':' :: ' ' :: pyStr size

def nameLine (name : Str) : Str := "func name".toList ++ ':' :: ' ' :: name

/-- The lines of a record. -/
def BBRecord.lines (r : BBRecord) : List Str :=
  nameLine r.name :: (r.bbSize.zipIdx.map fun p => sizeLine p.1 p.2) ++ [[]]

/-- The text that `BB_check1.py` writes. -/
def expectBBText (rs : List BBRecord) : Str :=
  (rs.flatMap BBRecord.lines).flatMap fun line => line ++ ['\n']

/-! ## The reader -/

/-- `class Func` of `Addr_info.py`. -/
structure AddrFunc where
  name : Str
  startAddr : ℤ := 0
  bbCnt : ℕ := 0
  bbSize : List ℤ := []
  bbAddr : List ℤ := []
  deriving DecidableEq

/-- The variables of the reading loop. An object is a place in `heap`; `func` and `Funcs` refer to
objects, and `func` has no value before the first one. -/
structure ReadVars where
  heap : List AddrFunc := []
  func : Option ℕ := none
  funcs : List ℕ := []
  startLine : ℕ := 0
  deriving DecidableEq

/-- The entries of `Funcs`. -/
def ReadVars.entries (s : ReadVars) : List AddrFunc := s.funcs.filterMap fun func => s.heap[func]?

def hasName (line : Str) : Bool := decide ("func name".toList <:+: line)

/-- The first inner loop over `lines[name_line:]`: how many lines it passes, and the objects and
`func` afterwards. -/
def findName (s : ReadVars) (lines : List Str) : Option (ℕ × List AddrFunc × Option ℕ) :=
  let passed := lines.findIdx hasName
  match lines[passed]? with
  | some line => (splitColon line).map fun token =>
      (passed, s.heap ++ [{ name := strip token }], some s.heap.length)
  | none => some (passed, s.heap, s.func)

/-- The second inner loop: how many lines it takes, and the object afterwards; none is an index or a
value error. -/
def readSizes (f : AddrFunc) : List Str → Option (ℕ × AddrFunc)
  | [] => some (0, f)
  | line :: lines =>
    if line = ['\n'] then some (1, f)
    else do
      let token ← splitColon line
      let size ← pyInt 10 (strip token)
      let (taken, f) ← readSizes { f with bbCnt := f.bbCnt + 1, bbSize := f.bbSize ++ [size] } lines
      return (taken + 1, f)

/-- One turn of the outer loop; `func` without a value is a name error. -/
def readRecord (lines : List Str) (s : ReadVars) : Option ReadVars := do
  let (passed, heap, func) ← findName s (lines.drop s.startLine)
  let nameLine := s.startLine + passed
  let func ← func
  let f ← heap[func]?
  let (taken, f) ← readSizes f (lines.drop (nameLine + 1))
  return { heap := heap.set func f, func := some func, funcs := s.funcs ++ [func],
           startLine := nameLine + taken }

/-- `line_num-1 >= start_line`. -/
def moreLines (lines : List Str) (s : ReadVars) : Bool :=
  decide ((s.startLine : ℤ) ≤ (lines.length : ℤ) - 1)

/-- The outer loop, with at most `n` tests. -/
def readLoop (lines : List Str) (n : ℕ) (s : ReadVars) : Loop.Outcome ReadVars :=
  Loop.run (moreLines lines) (readRecord lines) n s

/-- The reading part of the script. -/
def readRecords (n : ℕ) (lines : List Str) : Loop.Outcome ReadVars := readLoop lines n {}

/-! ## The lines of the file -/

/-- The object that a record is read into. -/
def BBRecord.toFunc (r : BBRecord) : AddrFunc where
  name := r.name
  bbCnt := r.bbSize.length
  bbSize := r.bbSize

/-- The lines of a record up to the blank one, as they are read. -/
def BBRecord.body (r : BBRecord) : List Str :=
  (nameLine r.name :: r.bbSize.zipIdx.map fun p => sizeLine p.1 p.2).map fun line => line ++ ['\n']

/-- The lines of the records, as they are read. -/
def fileLines (rs : List BBRecord) : List Str := rs.flatMap fun r => r.body ++ [['\n']]

@[simp] theorem fileLines_nil : fileLines [] = [] := rfl

theorem fileLines_append (rs rs' : List BBRecord) :
    fileLines (rs ++ rs') = fileLines rs ++ fileLines rs' := List.flatMap_append

theorem fileLines_cons (r : BBRecord) (rs : List BBRecord) :
    fileLines (r :: rs) = r.body ++ ['\n'] :: fileLines rs := by
  unfold fileLines
  rw [List.flatMap_cons, List.append_assoc]
  rfl

theorem oneLine_sizeLine (size : ℤ) (j : ℕ) : OneLine (sizeLine size j) := by
  unfold sizeLine
  simp

theorem newline_notMem_nameLine {name : Str} (h : '\n' ∉ name) : '\n' ∉ nameLine name := by
  unfold nameLine
  simp [h]

theorem oneLine_nameLine {name : Str} (h : OneLine name) : OneLine (nameLine name) := by
  unfold nameLine
  simp [h]

theorem BBRecord.oneLine_of_mem {r : BBRecord} {line : Str} (h : line ∈ r.lines) : OneLine line := by
  unfold BBRecord.lines at h
  simp only [List.mem_append, List.mem_cons, List.mem_map, List.not_mem_nil, or_false] at h
  rcases h with (rfl | ⟨p, -, rfl⟩) | rfl
  · exact oneLine_nameLine r.oneLine
  · exact oneLine_sizeLine _ _
  · exact oneLine_nil

/-- `readlines` gives the lines that were written. -/
theorem readlines_expectBBText (rs : List BBRecord) :
    readlines (expectBBText rs) = fileLines rs := by
  unfold expectBBText
  rw [readlines_flatMap fun line hline => by
    obtain ⟨r, -, hr⟩ := List.mem_flatMap.mp hline
    exact r.oneLine_of_mem hr]
  unfold fileLines
  rw [List.map_flatMap]
  apply List.flatMap_congr
  intro r _
  unfold BBRecord.lines BBRecord.body
  rw [List.map_append]
  rfl

/-! ## One turn -/

theorem splitColon_nameLine (r : BBRecord) :
    (splitColon (nameLine r.name ++ ['\n'])).map strip = some r.name := by
  have hspace : ∀ c ∈ [' '], isSpace c = true := by simp [isSpace]
  have hnl : ∀ c ∈ ['\n'], isSpace c = true := by simp [isSpace]
  unfold nameLine
  rw [List.append_assoc, List.cons_append, splitColon_append (by simp), Option.map_some]
  have hstrip := strip_pad hspace hnl r.name
  rw [r.trimmed] at hstrip
  exact congrArg some hstrip

theorem pyInt_sizeLine (size : ℤ) (j : ℕ) :
    ((splitColon (sizeLine size j ++ ['\n'])).bind fun token => pyInt 10 (strip token)) =
      some size := by
  have hspace : ∀ c ∈ [' '], isSpace c = true := by simp [isSpace]
  have hnl : ∀ c ∈ ['\n'], isSpace c = true := by simp [isSpace]
  have hj : ':' ∉ pyStr (j + 1) := fun h => (plain_of_mem_decimal h).colon rfl
  have hkey : ':' ∉ "BB".toList ++ pyStr (j + 1) ++ " size".toList := by simp [hj]
  have hstrip : strip (' ' :: pyStr size ++ ['\n']) = pyStr size :=
    strip_append_append hspace (fun c => isSpace_of_mem_pyStr) (pyStr_ne_nil size) hnl
  unfold sizeLine
  rw [List.append_assoc, List.cons_append, splitColon_append hkey, Option.bind_some, hstrip,
    pyInt_pyStr]

theorem hasName_nameLine (name : Str) : hasName (nameLine name ++ ['\n']) = true :=
  decide_eq_true ⟨[], ':' :: ' ' :: name ++ ['\n'], by unfold nameLine; simp⟩

/-- The first loop passes what holds no name and opens the record behind it. -/
theorem findName_body (s : ReadVars) {junk : List Str} (hjunk : ∀ l ∈ junk, hasName l = false)
    (r : BBRecord) (rest : List Str) : findName s (junk ++ (r.body ++ rest)) =
      some (junk.length, s.heap ++ [{ name := r.name }], some s.heap.length) := by
  obtain ⟨token, htoken, hstrip⟩ := Option.map_eq_some_iff.mp (splitColon_nameLine r)
  have hidx : (junk ++ (r.body ++ rest)).findIdx hasName = junk.length := by
    have hpass : junk.findIdx hasName = junk.length := List.findIdx_eq_length.mpr hjunk
    unfold BBRecord.body
    rw [List.findIdx_append, hpass, if_neg (lt_irrefl _), List.map_cons, List.cons_append,
      List.findIdx_cons, hasName_nameLine]
    exact Nat.zero_add _
  have hline : (junk ++ (r.body ++ rest))[junk.length]? = some (nameLine r.name ++ ['\n']) := by
    rw [List.getElem?_append_right le_rfl, Nat.sub_self]
    rfl
  unfold findName
  simp only [hidx, hline, htoken, Option.map_some, hstrip]

/-- The second loop takes the sizes and the blank line. -/
theorem readSizes_lines (f : AddrFunc) (sizes : List ℤ) (i : ℕ) (rest : List Str) :
    readSizes f (((sizes.zipIdx i).map fun p => sizeLine p.1 p.2 ++ ['\n']) ++ ['\n'] :: rest) =
      some (sizes.length + 1,
        { f with bbCnt := f.bbCnt + sizes.length, bbSize := f.bbSize ++ sizes }) := by
  induction sizes generalizing f i with
  | nil => simp [readSizes]
  | cons size sizes ih =>
    have hne : sizeLine size i ++ ['\n'] ≠ ['\n'] := by simp [sizeLine]
    obtain ⟨token, htoken, hint⟩ := Option.bind_eq_some_iff.mp (pyInt_sizeLine size i)
    rw [List.zipIdx_cons, List.map_cons, List.cons_append, readSizes, if_neg hne, htoken,
      Option.bind_eq_bind, Option.bind_some, hint, Option.bind_eq_bind, Option.bind_some, ih]
    simp [Nat.add_assoc, Nat.add_comm 1]

/-- One turn reads the next record. -/
theorem readRecord_body {lines : List Str} {s : ReadVars} {junk : List Str}
    (hjunk : ∀ l ∈ junk, hasName l = false) (r : BBRecord) {rest : List Str}
    (hlines : lines.drop s.startLine = junk ++ (r.body ++ ['\n'] :: rest)) :
    readRecord lines s = some
      { heap := s.heap ++ [r.toFunc], func := some s.heap.length,
        funcs := s.funcs ++ [s.heap.length],
        startLine := s.startLine + junk.length + r.body.length } := by
  have hbody : r.body = (nameLine r.name ++ ['\n']) ::
      r.bbSize.zipIdx.map fun p => sizeLine p.1 p.2 ++ ['\n'] := by
    unfold BBRecord.body
    rw [List.map_cons, List.map_map]
    rfl
  have hsizes : lines.drop (s.startLine + junk.length + 1) =
      (r.bbSize.zipIdx.map fun p => sizeLine p.1 p.2 ++ ['\n']) ++ ['\n'] :: rest := by
    rw [Nat.add_assoc, ← List.drop_drop, hlines, hbody, ← List.drop_drop, List.drop_left]
    rfl
  unfold readRecord
  simp only [hlines, findName_body s hjunk, Option.bind_eq_bind, Option.bind_some, hsizes,
    readSizes_lines, List.getElem?_concat_length, Option.pure_def, Option.some.injEq]
  rw [hbody, List.length_cons, List.length_map, List.length_zipIdx]
  simp [BBRecord.toFunc]

/-! ## The whole loop -/

/-- The variables after some records: the cursor is on the blank line of the last one. -/
def readState (done : List BBRecord) : ReadVars where
  heap := done.map BBRecord.toFunc
  func := (List.range done.length).getLast?
  funcs := List.range done.length
  startLine := (fileLines done).length - 1

/-- What is in front of the next record. -/
theorem drop_readState (done rest : List BBRecord) :
    ∃ junk, (∀ l ∈ junk, hasName l = false) ∧
      (fileLines (done ++ rest)).drop (readState done).startLine = junk ++ fileLines rest ∧
      (readState done).startLine + junk.length = (fileLines done).length := by
  unfold readState
  obtain rfl | ⟨init, r, rfl⟩ := List.eq_nil_or_concat done
  · exact ⟨[], by simp, rfl, rfl⟩
  · have hlast : fileLines (init.concat r) = fileLines init ++ r.body ++ [['\n']] := by
      rw [List.concat_eq_append, fileLines_append, fileLines_cons, List.append_assoc]
      rfl
    refine ⟨[['\n']], by decide, ?_, ?_⟩
    · rw [fileLines_append, hlast, List.length_append, List.length_singleton, Nat.add_sub_cancel,
        List.append_assoc, List.drop_left]
    · rw [hlast, List.length_append, List.length_singleton]
      rfl

theorem readRecord_readState (done : List BBRecord) (r : BBRecord) (rest : List BBRecord) :
    readRecord (fileLines (done ++ r :: rest)) (readState done) =
      some (readState (done ++ [r])) := by
  obtain ⟨junk, hjunk, hdrop, hlen⟩ := drop_readState done (r :: rest)
  rw [fileLines_cons] at hdrop
  rw [readRecord_body hjunk r hdrop, hlen]
  unfold readState
  simp [fileLines_append, fileLines_cons, List.range_succ]

theorem moreLines_eq_true {lines : List Str} {s : ReadVars} :
    moreLines lines s = true ↔ s.startLine < lines.length := by
  unfold moreLines
  rw [decide_eq_true_iff]
  omega

/-- The records are read one by one. -/
theorem readLoop_readState (done rest : List BBRecord) (n : ℕ) :
    readLoop (fileLines (done ++ rest)) (rest.length + n) (readState done) =
      readLoop (fileLines (done ++ rest)) n (readState (done ++ rest)) := by
  induction rest generalizing done with
  | nil => rw [List.append_nil, List.length_nil, Nat.zero_add]
  | cons r rest ih =>
    have hmore : moreLines (fileLines (done ++ r :: rest)) (readState done) = true := by
      rw [moreLines_eq_true, fileLines_append, fileLines_cons, List.length_append,
        List.length_append, List.length_cons]
      show (fileLines done).length - 1 < _
      omega
    have hih := ih (done ++ [r])
    rw [List.append_assoc, List.singleton_append] at hih
    rw [List.length_cons, Nat.add_right_comm, ← hih]
    exact Loop.run_of_guard hmore (readRecord_readState done r rest) _

/-- The variables at the end: the loop has taken the last object once more. -/
def finalState (rs : List BBRecord) : ReadVars where
  heap := rs.map BBRecord.toFunc
  func := (List.range rs.length).getLast?
  funcs := List.range rs.length ++ [rs.length - 1]
  startLine := (fileLines rs).length

/-- With only the blank line left no name is found, and `func` is still the last object. -/
theorem readRecord_blank {lines : List Str} {s : ReadVars} {func : ℕ} {f : AddrFunc}
    (hlines : lines.drop s.startLine = [['\n']]) (hfunc : s.func = some func)
    (hf : s.heap[func]? = some f) :
    readRecord lines s =
      some { s with funcs := s.funcs ++ [func], startLine := s.startLine + 1 } := by
  have hfind : findName s [['\n']] = some (1, s.heap, some func) := by
    rw [← hfunc]
    rfl
  have hdrop : lines.drop (s.startLine + 1 + 1) = [] := by
    rw [Nat.add_assoc, ← List.drop_drop, hlines]
    rfl
  obtain ⟨hlt, hget⟩ := List.getElem?_eq_some_iff.mp hf
  unfold readRecord
  simp only [hlines, hfind, Option.bind_eq_bind, Option.bind_some, hf, hdrop, readSizes,
    Option.pure_def, Option.some.injEq, Nat.add_zero]
  rw [← hget, List.set_getElem_self, hfunc]

/-- **The reading loop.** -/
theorem readRecords_eq {rs : List BBRecord} (hne : rs ≠ []) :
    readRecords (rs.length + 2) (fileLines rs) = .done (finalState rs) := by
  obtain ⟨init, r, hrs⟩ := (List.eq_nil_or_concat rs).resolve_left hne
  have hlen : rs.length = init.length + 1 := by rw [hrs, List.length_concat]
  have hlast : fileLines rs = fileLines init ++ r.body ++ [['\n']] := by
    rw [hrs, List.concat_eq_append, fileLines_append, fileLines_cons, List.append_assoc]
    rfl
  have hcount : (fileLines rs).length = (fileLines init ++ r.body).length + 1 := by
    rw [hlast]
    exact List.length_append
  have hstart : (readState rs).startLine = (fileLines init ++ r.body).length := by
    show (fileLines rs).length - 1 = _
    rw [hcount, Nat.add_sub_cancel]
  have hfunc : (List.range rs.length).getLast? = some (rs.length - 1) := by
    rw [hlen, List.range_succ, List.getLast?_concat, Nat.add_sub_cancel]
  have hget : (rs.map BBRecord.toFunc)[rs.length - 1]? = some r.toFunc := by
    rw [hlen, Nat.add_sub_cancel, hrs, List.concat_eq_append, List.map_append,
      ← List.length_map (f := BBRecord.toFunc)]
    exact List.getElem?_concat_length
  have hstep : readRecord (fileLines rs) (readState rs) = some (finalState rs) := by
    rw [readRecord_blank ?_ hfunc hget, hstart]
    · unfold finalState readState
      rw [hcount]
    · rw [hstart, hlast, List.drop_left]
  have hmore : moreLines (fileLines rs) (readState rs) = true := by
    rw [moreLines_eq_true, hstart, hcount]
    exact Nat.lt_succ_self _
  have hend : moreLines (fileLines rs) (finalState rs) = false := by
    rw [← Bool.not_eq_true, moreLines_eq_true]
    exact lt_irrefl _
  have hread : readLoop (fileLines rs) (rs.length + 2) (readState []) =
      readLoop (fileLines rs) 2 (readState rs) := by
    have h := readLoop_readState [] rs 2
    rwa [List.nil_append] at h
  calc readRecords (rs.length + 2) (fileLines rs)
      = readLoop (fileLines rs) (rs.length + 2) (readState []) := rfl
    _ = readLoop (fileLines rs) 2 (readState rs) := hread
    _ = readLoop (fileLines rs) 1 (finalState rs) := Loop.run_of_guard hmore hstep 1
    _ = .done (finalState rs) := Loop.run_of_not_guard hend 0

end MpuPasses
