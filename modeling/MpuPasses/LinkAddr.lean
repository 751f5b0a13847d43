import MpuPasses.Layout

/-!
# `Link_addr.txt`

`function_size.py` writes four lines and a blank one for every function (`linkAddrText`);
`Set_Operand` reads them with two counters, `cnt` for the line within a record and `i` for the
record, the second of them advanced by blank lines (`readLinkAddr`). The reader cuts a line two
characters behind its first colon and takes numbers up to the first character that is no digit.
`readLinkAddr_eq_some_iff` says what it reads back, `readLinkAddr_sameFields` that this is what was
written.
-/

namespace MpuPasses

open Chars

/-! ## The writer -/

/-- The lines of a record. -/
def recordLines (f : Func) : List Str :=
  ["func name: ".toList ++ f.name,
    "function size: ".toList ++ pyStr f.functionSize,
    "start_region: ".toList ++ pyStr f.regionStart ++ " (".toList ++ pyHex f.regionStart ++
      ")".toList,
    "region_size: ".toList ++ pyStr f.regionSize,
    []]

/-- The text of `Link_addr.txt`. -/
def linkAddrText (funcs : List Func) : Str :=
  (funcs.flatMap recordLines).flatMap fun line => line ++ ['\n']

/-! ## The reader -/

/-- `class func`. -/
structure LinkFunc where
  name : Str
  functionSize : BitVec 32 := 0
  regionStart : BitVec 32 := 0
  regionSize : BitVec 32 := 0
  deriving DecidableEq

/-- `line.substr(line.find(":") + 2)`; a line without a colon has position -1, and a position
behind the end of the line throws. -/
def afterColon (line : Str) : Option Str :=
  let pos : ℤ := match line.findIdx? (· == ':') with
    | some p => p
    | none => -1
  if (pos + 2).toNat ≤ line.length then some (line.drop (pos + 2).toNat) else none

/-- The variables of the reading loop. -/
structure ReadState where
  funcs : List LinkFunc := []
  cnt : ℕ := 0
  i : ℕ := 0
  deriving DecidableEq

/-- `Funcs[i]->field = …`; an index past the end is none. -/
def ReadState.setFunc (s : ReadState) (set : LinkFunc → LinkFunc) : Option ReadState :=
  if s.i < s.funcs.length then some { s with funcs := s.funcs.modify s.i set } else none

/-- The field that line `cnt` of a record sets. -/
def LinkFunc.setField (cnt : ℕ) (v : BitVec 32) (f : LinkFunc) : LinkFunc :=
  match cnt with
  | 1 => { f with functionSize := v }
  | 2 => { f with regionStart := v }
  | 3 => { f with regionSize := v }
  | _ => f

/-- One turn of `while(getline(input_file, line))`. -/
def readLine (s : ReadState) (line : Str) : Option ReadState :=
  if line.length > 1 then do
    let token ← afterColon line
    let s ←
      if s.cnt = 0 then some { s with funcs := s.funcs ++ [{ name := token }] }
      else (stoi token).bind fun v => s.setFunc (LinkFunc.setField s.cnt (BitVec.ofInt 32 v))
    let cnt := s.cnt + 1
    some { s with cnt := if cnt = 4 then 0 else cnt }
  else some { s with i := s.i + 1 }

/-- The reading loop; none is an exception or an index out of bounds. -/
def readLinkAddr (text : Str) : Option (List LinkFunc) :=
  ((getlines text).foldlM readLine {}).map ReadState.funcs

/-! ## Reading undoes writing -/

/-- A record as the reader keeps it. -/
def Func.toLinkFunc (f : Func) : LinkFunc where
  name := f.name
  functionSize := BitVec.ofInt 32 f.functionSize
  regionStart := BitVec.ofNat 32 f.regionStart
  regionSize := BitVec.ofNat 32 f.regionSize

/-- The numbers of a record fit an `int`. -/
def Func.FitsInt (f : Func) : Prop :=
  IsInt f.functionSize ∧ IsInt f.regionStart ∧ IsInt f.regionSize

instance : DecidablePred Func.FitsInt := fun f => by unfold Func.FitsInt; infer_instance

theorem afterColon_append {key : Str} (h : ':' ∉ key) (s : Str) :
    afterColon (key ++ ':' :: ' ' :: s) = some s := by
  have hidx : (key ++ ':' :: ' ' :: s).findIdx? (· == ':') = some key.length := by
    rw [List.findIdx?_append, List.findIdx?_eq_none_iff.mpr fun c hc => by
      simpa using fun hcolon : c = ':' => h (hcolon ▸ hc)]
    simp [List.findIdx?_cons]
  have hpos : ((key.length : ℤ) + 2).toNat = key.length + 2 := by omega
  simp only [afterColon, hidx, hpos]
  rw [if_pos (by simp), List.drop_length_add_append]
  rfl

theorem append_colon {p k : Str} (h : p = k ++ [':', ' ']) (s : Str) :
    p ++ s = k ++ ':' :: ' ' :: s := by
  rw [h, List.append_assoc]
  rfl

/-- The first line of a record opens it. -/
theorem readLine_name (done : List LinkFunc) (i : ℕ) (key name : Str) (h : ':' ∉ key) :
    readLine { funcs := done, cnt := 0, i := i } (key ++ ':' :: ' ' :: name) =
      some { funcs := done ++ [{ name := name }], cnt := 1, i := i } := by
  simp [readLine, afterColon_append h]
  omega

/-- A later line sets its field of the record that was opened last. -/
theorem readLine_field (v : ℤ) {key rest : Str} (h : ':' ∉ key)
    (hrest : ∀ c ∈ rest.head?, c.isDigit = false) (done : List LinkFunc) (f : LinkFunc) {cnt : ℕ}
    (hcnt : cnt ≠ 0) :
    readLine { funcs := done ++ [f], cnt := cnt, i := done.length }
        (key ++ ':' :: ' ' :: (pyStr v ++ rest)) =
      (checkInt v).map fun v =>
        { funcs := done ++ [f.setField cnt (BitVec.ofInt 32 v)],
          cnt := if cnt + 1 = 4 then 0 else cnt + 1, i := done.length } := by
  have hmodify : ∀ set : LinkFunc → LinkFunc,
      (done ++ [f]).modify done.length set = done ++ [set f] := by
    intro set
    rw [List.modify_eq_take_cons_drop (by simp)]
    simp
  have hlen : key.length + (2 + ((pyStr v).length + rest.length)) > 1 := by omega
  unfold readLine
  rw [if_pos (by simpa [Nat.add_assoc, Nat.add_comm, Nat.add_left_comm] using hlen),
    afterColon_append h, Option.bind_eq_bind, Option.bind_some]
  simp only [hcnt, if_false, stoi_pyStr_append v hrest]
  cases checkInt v with
  | none => rfl
  | some v => simp [ReadState.setFunc, hmodify]

/-- The five lines of a record append it and lead to the next one, if its numbers fit. -/
theorem foldlM_recordLines (f : Func) (done : List LinkFunc) :
    (recordLines f).foldlM readLine { funcs := done, cnt := 0, i := done.length } =
      if f.FitsInt then some { funcs := done ++ [f.toLinkFunc], cnt := 0, i := done.length + 1 }
      else none := by
  have hopen : ∀ c ∈ (" (".toList ++ (pyHex f.regionStart ++ ")".toList)).head?,
      c.isDigit = false := by simp
  have hend : ∀ c ∈ ([] : Str).head?, c.isDigit = false := by simp
  have hsize := fun g => readLine_field f.functionSize (by decide : ':' ∉ "function size".toList)
    hend done g (by decide : 1 ≠ 0)
  have hstart := fun g => readLine_field f.regionStart (by decide : ':' ∉ "start_region".toList)
    hopen done g (by decide : 2 ≠ 0)
  have hregion := fun g => readLine_field f.regionSize (by decide : ':' ∉ "region_size".toList)
    hend done g (by decide : 3 ≠ 0)
  simp only [recordLines, List.append_assoc]
  rw [append_colon (p := "func name: ".toList) (k := "func name".toList) (by decide),
    append_colon (p := "function size: ".toList) (k := "function size".toList) (by decide),
    append_colon (p := "start_region: ".toList) (k := "start_region".toList) (by decide),
    append_colon (p := "region_size: ".toList) (k := "region_size".toList) (by decide),
    List.foldlM_cons, readLine_name done done.length _ _ (by decide), Option.bind_eq_bind,
    Option.bind_some, ← List.append_nil (pyStr f.functionSize), ← List.append_nil (pyStr f.regionSize),
    List.foldlM_cons, hsize]
  -- each number that does not fit stops the reader
  unfold Func.FitsInt
  by_cases h1 : IsInt f.functionSize
  · rw [checkInt, if_pos h1, Option.map_some, Option.bind_eq_bind, Option.bind_some,
      List.foldlM_cons]
    simp only [Nat.reduceAdd, Nat.reduceEqDiff, if_false]
    rw [hstart]
    by_cases h2 : IsInt f.regionStart
    · rw [checkInt, if_pos h2, Option.map_some, Option.bind_eq_bind, Option.bind_some,
        List.foldlM_cons]
      simp only [Nat.reduceAdd, Nat.reduceEqDiff, if_false]
      rw [hregion]
      by_cases h3 : IsInt f.regionSize
      · rw [checkInt, if_pos h3]
        exact (if_pos ⟨h1, h2, h3⟩).symm
      · rw [checkInt, if_neg h3]
        exact (if_neg fun h => h3 h.2.2).symm
    · rw [checkInt, if_neg h2]
      exact (if_neg fun h => h2 h.2.1).symm
  · rw [checkInt, if_neg h1]
    exact (if_neg fun h => h1 h.1).symm

theorem newline_notMem_recordLines {f : Func} {line : Str} (h : line ∈ recordLines f) :
    '\n' ∉ line := by
  have h1 := newline_notMem_pyStr f.functionSize
  have h2 := newline_notMem_pyStr f.regionStart
  have h3 := newline_notMem_pyStr f.regionSize
  have h4 := newline_notMem_pyHex f.regionStart
  have h5 := f.oneLine
  simp only [recordLines, List.mem_cons, List.not_mem_nil, or_false] at h
  rcases h with rfl | rfl | rfl | rfl | rfl <;> simp [h1, h2, h3, h4, h5]

theorem getlines_linkAddrText (out : List Func) :
    getlines (linkAddrText out) = out.flatMap recordLines :=
  getlines_flatMap fun line hl => by
    obtain ⟨f, -, hf⟩ := List.mem_flatMap.mp hl
    exact newline_notMem_recordLines hf

/-- The reader goes through the records one by one and stops at the first that does not fit. -/
theorem foldlM_flatMap_recordLines (out : List Func) (done : List LinkFunc) :
    (out.flatMap recordLines).foldlM readLine { funcs := done, cnt := 0, i := done.length } =
      if ∀ f ∈ out, f.FitsInt then
        some { funcs := done ++ out.map Func.toLinkFunc, cnt := 0, i := done.length + out.length }
      else none := by
  induction out generalizing done with
  | nil => simp
  | cons f out ih =>
    rw [List.flatMap_cons, List.foldlM_append, foldlM_recordLines]
    by_cases hf : f.FitsInt
    · have hih := ih (done ++ [f.toLinkFunc])
      rw [List.length_append, List.length_singleton] at hih
      rw [if_pos hf, Option.bind_eq_bind, Option.bind_some, hih]
      by_cases hout : ∀ g ∈ out, g.FitsInt
      · rw [if_pos hout, if_pos (List.forall_mem_cons.mpr ⟨hf, hout⟩)]
        simp only [List.append_assoc, List.singleton_append, List.map_cons, List.length_cons,
          Nat.add_assoc, Nat.add_comm 1]
      · rw [if_neg hout, if_neg fun h => hout (List.forall_mem_cons.mp h).2]
    · rw [if_neg hf, if_neg fun h => hf (List.forall_mem_cons.mp h).1]
      rfl

/-- **Reading undoes writing**, for the records that fit. -/
theorem readLinkAddr_eq_some_iff {out : List Func} {table : List LinkFunc} :
    readLinkAddr (linkAddrText out) = some table ↔
      (∀ f ∈ out, f.FitsInt) ∧ table = out.map Func.toLinkFunc := by
  have hfold := foldlM_flatMap_recordLines out []
  rw [List.length_nil] at hfold
  unfold readLinkAddr
  rw [getlines_linkAddrText, hfold]
  by_cases h : ∀ f ∈ out, f.FitsInt
  · rw [if_pos h, Option.map_some, Option.some.injEq, List.nil_append, eq_comm]
    exact (and_iff_right h).symm
  · rw [if_neg h]
    simp [h]

/-! ## All four fields -/

/-- The numbers of a record are natural numbers that fit an `int`. -/
def Func.InRange (f : Func) : Prop :=
  (0 ≤ f.functionSize ∧ f.functionSize ≤ 2 ^ 31 - 1) ∧ f.regionStart ≤ 2 ^ 31 - 1 ∧
    f.regionSize ≤ 2 ^ 31 - 1

instance : DecidablePred Func.InRange := fun f => by unfold Func.InRange; infer_instance

/-- A record of the script and one of the pass agree. -/
structure Func.SameFields (f : Func) (g : LinkFunc) : Prop where
  name : g.name = f.name
  functionSize : (g.functionSize.toNat : ℤ) = f.functionSize
  regionStart : g.regionStart.toNat = f.regionStart
  regionSize : g.regionSize.toNat = f.regionSize

theorem Func.InRange.fitsInt {f : Func} (h : f.InRange) : f.FitsInt := by
  obtain ⟨⟨h0, hsize⟩, hstart, hregion⟩ := h
  unfold FitsInt IsInt
  refine ⟨⟨?_, ?_⟩, ⟨?_, ?_⟩, ?_, ?_⟩ <;> omega

theorem Func.InRange.sameFields {f : Func} (h : f.InRange) : f.SameFields f.toLinkFunc := by
  obtain ⟨⟨h0, hsize⟩, hstart, hregion⟩ := h
  constructor
  · rfl
  · show ((BitVec.ofInt 32 f.functionSize).toNat : ℤ) = f.functionSize
    rw [BitVec.toNat_ofInt]
    omega
  · show (BitVec.ofNat 32 f.regionStart).toNat = f.regionStart
    rw [BitVec.toNat_ofNat]
    omega
  · show (BitVec.ofNat 32 f.regionSize).toNat = f.regionSize
    rw [BitVec.toNat_ofNat]
    omega

/-- **The round trip.** The reader gets the records that were written, in their order and with the
same fields. -/
theorem readLinkAddr_sameFields {out : List Func} (h : ∀ f ∈ out, f.InRange) :
    ∃ table, readLinkAddr (linkAddrText out) = some table ∧
      List.Forall₂ Func.SameFields out table := by
  refine ⟨out.map Func.toLinkFunc, ?_, ?_⟩
  · exact readLinkAddr_eq_some_iff.mpr ⟨fun f hf => (h f hf).fitsInt, rfl⟩
  · rw [List.forall₂_map_right_iff, List.forall₂_same]
    exact fun f hf => (h f hf).sameFields

/-- Names may hold colons and digits. -/
theorem readLinkAddr_sameFields_colons :
    ∃ table, readLinkAddr (linkAddrText [
        { name := "std::sum 2".toList, functionSize := 40, regionStart := 0x8004000,
          regionSize := 64 },
        { name := "7: ".toList, functionSize := 0, regionStart := 0x8004040,
          regionSize := 32 }]) = some table ∧
      List.Forall₂ Func.SameFields [
        { name := "std::sum 2".toList, functionSize := 40, regionStart := 0x8004000,
          regionSize := 64 },
        { name := "7: ".toList, functionSize := 0, regionStart := 0x8004040,
          regionSize := 32 }] table :=
  readLinkAddr_sameFields (by decide)

end MpuPasses
