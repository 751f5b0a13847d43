import MpuPasses.ExpectBB

/-!
# When the reading loop ends

The cursor of the loop is left on the last line that a turn took, not behind it. A file that ends in
a name line is therefore read for ever: the turn that takes this line leaves the cursor where it was.
Every other turn moves it (`readRecord_spec`), so a file ends the loop exactly when its last line is
no name line or an earlier line stops the script (`ends_iff`).
-/

namespace MpuPasses

open Chars

/-! ## The files -/

/-- The number that the second inner loop takes from a line; none is an index or a value error. -/
def lineSize (line : Str) : Option ℤ := (splitColon line).bind fun token => pyInt 10 (strip token)

/-- A name line in front of name lines, lines with a size and blank lines, in any order. -/
structure RecordFile (text : Str) : Prop where
  first : ∃ line rest, readlines text = line :: rest ∧ hasName line = true
  others : ∀ line ∈ readlines text,
    hasName line = true ∨ (lineSize line).isSome = true ∨ line = ['\n']

/-- The loop comes to an end, by its test or by an error. -/
def Ends (text : Str) : Prop := ∃ n, readRecords n (readlines text) ≠ .running

/-- What a line makes of the state between two records (`false`) or inside one (`true`). -/
def recordStep (inside : Bool) (line : Str) : Bool :=
  if inside then decide (line ≠ ['\n']) else hasName line

/-- The lines so far leave a record open. -/
def inRecord (pre : List Str) : Bool := pre.foldl recordStep false

/-- The line has no number inside a record, or no name between two. -/
def stopsAt (inside : Bool) (line : Str) : Bool :=
  if inside then decide (line ≠ ['\n']) && (lineSize line).isNone
  else hasName line && (splitColon line).isNone

/-- The last line is a name line. -/
def EndsInName (lines : List Str) : Prop := ∃ pre line, lines = pre ++ [line] ∧ hasName line = true

/-- Some name line stops the script: inside a record it is taken for a size. -/
def NameStops (lines : List Str) : Prop :=
  ∃ pre line post, lines = pre ++ line :: post ∧ hasName line = true ∧
    stopsAt (inRecord pre) line = true

/-! ## Lines that stop the script -/

/-- Some line stops the script when the lines are met in the given state. -/
def stops : Bool → List Str → Bool
  | _, [] => false
  | inside, line :: lines => stopsAt inside line || stops (recordStep inside line) lines

theorem stops_iff {inside : Bool} {lines : List Str} : stops inside lines = true ↔
    ∃ pre line post, lines = pre ++ line :: post ∧
      stopsAt (pre.foldl recordStep inside) line = true := by
  induction lines generalizing inside with
  | nil => simp [stops]
  | cons line lines ih =>
    rw [stops, Bool.or_eq_true, ih]
    constructor
    · rintro (h | ⟨pre, l, post, rfl, h⟩)
      · exact ⟨[], line, lines, rfl, h⟩
      · exact ⟨line :: pre, l, post, rfl, h⟩
    · rintro ⟨pre, l, post, heq, h⟩
      cases pre with
      | nil =>
        obtain ⟨rfl, rfl⟩ := List.cons.inj heq
        exact .inl h
      | cons x pre =>
        obtain ⟨rfl, rfl⟩ := List.cons.inj heq
        exact .inr ⟨pre, l, post, rfl, h⟩

/-- In a file of records only a name line can stop the script. -/
theorem stops_iff_nameStops {text : Str} (h : RecordFile text) :
    stops false (readlines text) = true ↔ NameStops (readlines text) := by
  rw [stops_iff]
  constructor
  · rintro ⟨pre, line, post, heq, hstop⟩
    refine ⟨pre, line, post, heq, ?_, hstop⟩
    have hstop' : stopsAt (inRecord pre) line = true := hstop
    unfold stopsAt at hstop'
    rcases h.others line (by rw [heq]; simp) with hname | hsize | rfl
    · exact hname
    · split_ifs at hstop' with hin
      · simp [Option.isSome_iff_ne_none.mp hsize] at hstop'
      · exact (Bool.and_eq_true_iff.mp hstop').1
    · revert hstop'
      cases inRecord pre <;> decide
  · rintro ⟨pre, line, post, heq, -, hstop⟩
    exact ⟨pre, line, post, heq, hstop⟩

/-- A line that an open record has taken is no name without a colon. -/
theorem stopsAt_false_of_lineSize {line : Str} (h : (lineSize line).isSome = true) :
    stopsAt false line = false := by
  obtain ⟨size, hsize⟩ := Option.isSome_iff_exists.mp h
  obtain ⟨token, htoken, -⟩ := Option.bind_eq_some_iff.mp hsize
  simp [stopsAt, htoken]

/-! ## One turn -/

/-- The second inner loop takes a line if there is one. From the last line that it took, the
rest stops the script between two records just if the lines stop it inside one. -/
theorem readSizes_spec {f g : AddrFunc} {lines : List Str} {taken : ℕ}
    (h : readSizes f lines = some (taken, g)) (hne : lines ≠ []) :
    0 < taken ∧ taken ≤ lines.length ∧
      stops true lines = stops false (lines.drop (taken - 1)) := by
  induction lines generalizing f taken with
  | nil => exact absurd rfl hne
  | cons line lines ih =>
    unfold readSizes at h
    split_ifs at h with hblank
    · -- the blank line ends the record
      obtain ⟨rfl, -⟩ := Prod.mk.inj (Option.some.inj h)
      subst hblank
      refine ⟨Nat.one_pos, Nat.succ_le_succ (Nat.zero_le _), ?_⟩
      show stops true (['\n'] :: lines) = stops false (['\n'] :: lines)
      rw [stops, stops]
      rfl
    · obtain ⟨token, htoken, h⟩ := Option.bind_eq_some_iff.mp h
      obtain ⟨size, hsize, h⟩ := Option.bind_eq_some_iff.mp h
      obtain ⟨⟨k, g'⟩, hrest, h⟩ := Option.bind_eq_some_iff.mp h
      obtain ⟨rfl, rfl⟩ := Prod.mk.inj (Option.some.inj h)
      have hline : (lineSize line).isSome = true := by
        unfold lineSize
        rw [htoken, Option.bind_some, hsize]
        rfl
      have hnow : stops true (line :: lines) = stops true lines := by
        have hstep : recordStep true line = true := decide_eq_true hblank
        have hat : stopsAt true line = false := by simp [stopsAt, hline]
        rw [stops, hstep, hat, Bool.false_or]
      cases lines with
      | nil =>
        obtain ⟨rfl, -⟩ := Prod.mk.inj (Option.some.inj hrest)
        refine ⟨Nat.one_pos, le_rfl, ?_⟩
        show stops true [line] = stops false [line]
        rw [hnow, stops, stops, stopsAt_false_of_lineSize hline]
        rfl
      | cons next lines =>
        obtain ⟨hpos, hle, hstops⟩ := ih hrest (List.cons_ne_nil _ _)
        refine ⟨Nat.succ_pos k, Nat.succ_le_succ hle, ?_⟩
        obtain ⟨k, rfl⟩ : ∃ j, k = j + 1 := ⟨k - 1, by omega⟩
        rw [hnow, hstops]
        rfl

/-- The second inner loop behind a name line leaves the cursor on the last line that it took, on the
name line only if nothing is behind it. From there the rest stops the script between two records
just if the lines stop it inside one. -/
theorem readSizes_behind {f g : AddrFunc} {name : Str} {post : List Str} {taken : ℕ}
    (hat : stopsAt false name = false) (h : readSizes f post = some (taken, g)) :
    taken ≤ post.length ∧ (taken = 0 → post = []) ∧
      stops true post = stops false ((name :: post).drop taken) := by
  cases post with
  | nil =>
    obtain ⟨rfl, -⟩ := Prod.mk.inj (Option.some.inj h)
    refine ⟨le_rfl, fun _ => rfl, ?_⟩
    rw [List.drop_zero, stops, stops, stops, hat]
    rfl
  | cons line post =>
    obtain ⟨hpos, hle, hstops⟩ := readSizes_spec h (List.cons_ne_nil _ _)
    refine ⟨hle, by omega, ?_⟩
    obtain ⟨k, rfl⟩ : ∃ j, taken = j + 1 := ⟨taken - 1, by omega⟩
    rw [hstops, List.drop_succ_cons, Nat.add_sub_cancel]

/-- The second inner loop fails only at a line that stops the script. -/
theorem readSizes_isSome {f : AddrFunc} {lines : List Str} (h : stops true lines = false) :
    (readSizes f lines).isSome = true := by
  induction lines generalizing f with
  | nil => rfl
  | cons line lines ih =>
    obtain ⟨hat, hrest⟩ := Bool.or_eq_false_iff.mp h
    unfold readSizes
    split_ifs with hblank
    · rfl
    · have hsome : (lineSize line).isSome = true := by simpa [stopsAt, hblank] using hat
      obtain ⟨size, hsize⟩ := Option.isSome_iff_exists.mp hsome
      obtain ⟨token, htoken, hint⟩ := Option.bind_eq_some_iff.mp hsize
      have hstep : recordStep true line = true := decide_eq_true hblank
      rw [hstep] at hrest
      obtain ⟨⟨k, g⟩, hk⟩ := Option.isSome_iff_exists.mp
        (ih (f := { f with bbCnt := f.bbCnt + 1, bbSize := f.bbSize ++ [size] }) hrest)
      rw [htoken, Option.bind_eq_bind, Option.bind_some, hint, Option.bind_eq_bind,
        Option.bind_some, hk]
      rfl

/-- Lines without a name do not open a record. -/
theorem stops_append_of_hasName {pre : List Str} (hpre : ∀ l ∈ pre, hasName l = false)
    (lines : List Str) : stops false (pre ++ lines) = stops false lines := by
  induction pre with
  | nil => rfl
  | cons l pre ih =>
    obtain ⟨hl, hpre⟩ := List.forall_mem_cons.mp hpre
    have hat : stopsAt false l = false := by simp [stopsAt, hl]
    have hstep : recordStep false l = false := hl
    rw [List.cons_append, stops, hat, Bool.false_or, hstep, ih hpre]

theorem stops_of_hasName {pre : List Str} (hpre : ∀ l ∈ pre, hasName l = false) :
    stops false pre = false := by
  have h := stops_append_of_hasName hpre []
  rwa [List.append_nil] at h

/-- The lines hold no name, or there is a first one. -/
theorem exists_firstName (lines : List Str) : (∀ l ∈ lines, hasName l = false) ∨
    ∃ pre name post, lines = pre ++ name :: post ∧ (∀ l ∈ pre, hasName l = false) ∧
      hasName name = true := by
  induction lines with
  | nil => exact .inl (by simp)
  | cons line lines ih =>
    cases hline : hasName line with
    | true => exact .inr ⟨[], line, lines, rfl, by simp, hline⟩
    | false =>
      rcases ih with hnone | ⟨pre, name, post, rfl, hpre, hname⟩
      · exact .inl (List.forall_mem_cons.mpr ⟨hline, hnone⟩)
      · exact .inr ⟨line :: pre, name, post, rfl, List.forall_mem_cons.mpr ⟨hline, hpre⟩, hname⟩

section Turn

variable {lines pre post : List Str} {name : Str} {s t : ReadVars}

/-- With no name ahead the turn takes the last object again and the cursor leaves the file. -/
theorem readRecord_of_noName (hnone : ∀ l ∈ lines.drop s.startLine, hasName l = false)
    (hs : s.startLine < lines.length) (h : readRecord lines s = some t) :
    t.startLine = lines.length := by
  have hidx : (lines.drop s.startLine).findIdx hasName = lines.length - s.startLine := by
    rw [List.findIdx_eq_length.mpr hnone, List.length_drop]
  have hfind : findName s (lines.drop s.startLine) =
      some (lines.length - s.startLine, s.heap, s.func) := by
    unfold findName
    simp only [hidx]
    rw [List.getElem?_eq_none (by rw [List.length_drop])]
  have hdrop : lines.drop (s.startLine + (lines.length - s.startLine) + 1) = [] :=
    List.drop_of_length_le (by omega)
  unfold readRecord at h
  simp only [hfind, hdrop, readSizes, Option.bind_eq_bind, Option.bind_some] at h
  obtain ⟨func, -, h⟩ := Option.bind_eq_some_iff.mp h
  obtain ⟨f, -, h⟩ := Option.bind_eq_some_iff.mp h
  cases h
  show s.startLine + (lines.length - s.startLine) + 0 = lines.length
  omega

/-- The turn from a cursor with a first name ahead. -/
theorem readRecord_of_name (hlines : lines.drop s.startLine = pre ++ name :: post)
    (hpre : ∀ l ∈ pre, hasName l = false) (hname : hasName name = true) :
    readRecord lines s = (splitColon name).bind fun token =>
      (readSizes { name := strip token } post).map fun r =>
        { heap := s.heap ++ [r.2], func := some s.heap.length, funcs := s.funcs ++ [s.heap.length],
          startLine := s.startLine + pre.length + r.1 } := by
  have hidx : (pre ++ name :: post).findIdx hasName = pre.length := by
    rw [List.findIdx_append, List.findIdx_eq_length.mpr hpre, if_neg (lt_irrefl _),
      List.findIdx_cons, hname]
    exact Nat.zero_add _
  have hline : (pre ++ name :: post)[pre.length]? = some name := by
    rw [List.getElem?_append_right le_rfl, Nat.sub_self]
    rfl
  have hpost : lines.drop (s.startLine + pre.length + 1) = post := by
    rw [Nat.add_assoc, ← List.drop_drop, hlines, ← List.drop_drop, List.drop_left]
    rfl
  unfold readRecord findName
  simp only [hlines, hidx, hline]
  cases splitColon name with
  | none => rfl
  | some token =>
    simp only [Option.map_some, Option.bind_eq_bind, Option.bind_some, hpost,
      List.getElem?_concat_length]
    cases readSizes { name := strip token } post with
    | none => rfl
    | some r => simp

/-- **One turn.** The cursor does not go back, what stops the script ahead of it stays ahead of it,
and it stands still on a name line at the end of the file only. -/
theorem readRecord_spec (hs : s.startLine < lines.length) (h : readRecord lines s = some t) :
    s.startLine ≤ t.startLine ∧
      stops false (lines.drop s.startLine) = stops false (lines.drop t.startLine) ∧
      (t.startLine = s.startLine →
        EndsInName lines ∧ stops false (lines.drop s.startLine) = false) := by
  rcases exists_firstName (lines.drop s.startLine) with hnone | ⟨pre, name, post, hlines, hpre, hname⟩
  · have hend := readRecord_of_noName hnone hs h
    refine ⟨by omega, ?_, by omega⟩
    rw [stops_of_hasName hnone, hend, List.drop_length]
    rfl
  · rw [readRecord_of_name hlines hpre hname] at h
    obtain ⟨token, htoken, h⟩ := Option.bind_eq_some_iff.mp h
    obtain ⟨⟨taken, f⟩, hsizes, rfl⟩ := Option.map_eq_some_iff.mp h
    have hdrop : lines.drop (s.startLine + pre.length + taken) = (name :: post).drop taken := by
      rw [Nat.add_assoc, ← List.drop_drop, hlines, ← List.drop_drop, List.drop_left]
    have hat : stopsAt false name = false := by simp [stopsAt, htoken]
    obtain ⟨-, hnil, hstops⟩ := readSizes_behind hat hsizes
    refine ⟨by show s.startLine ≤ s.startLine + pre.length + taken; omega, ?_, ?_⟩
    · show stops false (lines.drop s.startLine) =
        stops false (lines.drop (s.startLine + pre.length + taken))
      have hopen : recordStep false name = true := hname
      rw [hdrop, hlines, stops_append_of_hasName hpre, stops, hat, Bool.false_or, hopen, hstops]
    · intro heq
      have hstay : pre.length = 0 ∧ taken = 0 := by
        have : s.startLine + pre.length + taken = s.startLine := heq
        omega
      rw [List.length_eq_zero_iff.mp hstay.1, hnil hstay.2] at hlines
      refine ⟨⟨lines.take s.startLine, name, ?_, hname⟩, ?_⟩
      · rw [← List.nil_append [name], ← hlines, List.take_append_drop]
      · rw [hlines, List.nil_append, stops, hat]
        rfl

/-- In front of a name line at the end, a turn that nothing stops keeps the cursor inside the
file. -/
theorem exists_readRecord (hlast : EndsInName lines) (hs : s.startLine < lines.length)
    (hstops : stops false (lines.drop s.startLine) = false) :
    ∃ t, readRecord lines s = some t ∧ t.startLine < lines.length := by
  rcases exists_firstName (lines.drop s.startLine) with hnone | ⟨pre, name, post, hlines, hpre, hname⟩
  · exfalso
    obtain ⟨init, last, rfl, hname⟩ := hlast
    have hle : s.startLine ≤ init.length := by
      rw [List.length_append, List.length_singleton] at hs
      omega
    rw [hnone last (by rw [List.drop_append_of_le_length hle]; simp)] at hname
    cases hname
  · rw [hlines, stops_append_of_hasName hpre, stops] at hstops
    obtain ⟨hat, hrest⟩ := Bool.or_eq_false_iff.mp hstops
    have hopen : recordStep false name = true := hname
    rw [hopen] at hrest
    have hsome : (splitColon name).isSome = true := by simpa [stopsAt, hname] using hat
    obtain ⟨token, htoken⟩ := Option.isSome_iff_exists.mp hsome
    obtain ⟨⟨taken, f⟩, hsizes⟩ := Option.isSome_iff_exists.mp
      (readSizes_isSome (f := { name := strip token }) hrest)
    rw [readRecord_of_name hlines hpre hname, htoken, Option.bind_some, hsizes]
    refine ⟨_, rfl, ?_⟩
    have hle := (readSizes_behind hat hsizes).1
    have hlen := congrArg List.length hlines
    rw [List.length_drop, List.length_append, List.length_cons] at hlen
    show s.startLine + pre.length + taken < lines.length
    omega

end Turn

/-! ## The whole loop -/

/-- A loop that meets a line that stops it, or whose last line is no name, ends. -/
theorem readRecords_ne_running {lines : List Str}
    (h : ¬ EndsInName lines ∨ stops false lines = true) :
    readRecords (lines.length + 1) lines ≠ .running := by
  apply Loop.run_ne_running
    (fun s => ¬ EndsInName lines ∨ stops false (lines.drop s.startLine) = true)
    (fun s => lines.length - s.startLine)
  · intro s t hs hmore hturn
    have hlt := moreLines_eq_true.mp hmore
    obtain ⟨hle, hstops, hstay⟩ := readRecord_spec hlt hturn
    have hmove : t.startLine ≠ s.startLine := by
      intro heq
      obtain ⟨hlast, hnone⟩ := hstay heq
      rcases hs with hs | hahead
      · exact hs hlast
      · rw [hnone] at hahead
        cases hahead
    refine ⟨?_, by omega⟩
    rw [← hstops]
    exact hs
  · exact h
  · exact Nat.lt_succ_self _

/-- With a name at the end that nothing keeps it from, the loop has no end. -/
theorem readRecords_eq_running {lines : List Str} (hlast : EndsInName lines)
    (h : stops false lines = false) (n : ℕ) : readRecords n lines = .running := by
  apply Loop.run_diverges
    (fun s => s.startLine < lines.length ∧ stops false (lines.drop s.startLine) = false)
  · rintro s ⟨hlt, hstops⟩
    obtain ⟨t, hturn, hlt'⟩ := exists_readRecord hlast hlt hstops
    refine ⟨moreLines_eq_true.mpr hlt, t, hturn, hlt', ?_⟩
    rw [← (readRecord_spec hlt hturn).2.1]
    exact hstops
  · obtain ⟨init, last, rfl, -⟩ := hlast
    refine ⟨?_, h⟩
    show 0 < (init ++ [last]).length
    rw [List.length_append, List.length_singleton]
    omega

/-- **Which files end the loop.** -/
theorem ends_iff {text : Str} (h : RecordFile text) :
    Ends text ↔ ¬ EndsInName (readlines text) ∨ NameStops (readlines text) := by
  rw [← stops_iff_nameStops h]
  constructor
  · rintro ⟨n, hn⟩
    by_contra hno
    obtain ⟨hlast, hstops⟩ := not_or.mp hno
    exact hn (readRecords_eq_running (not_not.mp hlast) (Bool.eq_false_iff.mpr hstops) n)
  · intro hends
    exact ⟨_, readRecords_ne_running hends⟩

/-- A record with a size, one without, and no blank line at the end. -/
def openEnd : Str := "func name: Sum\nBB1 size: 6\n\nfunc name: main\nBB1 size: 4".toList

theorem ends_openEnd : Ends openEnd := by
  have hfile : RecordFile openEnd := by
    constructor
    · exact ⟨_, _, rfl, by decide⟩
    · intro line hline
      have hlines : readlines openEnd = ["func name: Sum\n".toList, "BB1 size: 6\n".toList,
          ['\n'], "func name: main\n".toList, "BB1 size: 4".toList] := by decide
      rw [hlines] at hline
      simp only [List.mem_cons, List.not_mem_nil, or_false] at hline
      rcases hline with rfl | rfl | rfl | rfl | rfl <;> decide
  apply (ends_iff hfile).mpr
  left
  rintro ⟨pre, line, hlines, hname⟩
  have hlast := congrArg List.getLast? hlines
  rw [List.getLast?_concat] at hlast
  have hline : line = "BB1 size: 4".toList := by
    have hread : (readlines openEnd).getLast? = some "BB1 size: 4".toList := by decide
    exact Option.some.inj (hlast.symm.trans hread)
  rw [hline] at hname
  revert hname
  decide

/-- The name of a function without blocks. -/
def nameOnly : Str := "func name: f\n".toList

/-- A file of one name line is a file of records, and is read for ever. -/
theorem not_ends_nameOnly : RecordFile nameOnly ∧ ¬ Ends nameOnly := by
  have hlines : readlines nameOnly = [] ++ [nameOnly] := by decide
  have hname : hasName nameOnly = true := by decide
  refine ⟨⟨⟨_, _, hlines, hname⟩, fun line hline => ?_⟩, ?_⟩
  · rw [hlines] at hline
    exact .inl (List.mem_singleton.mp hline ▸ hname)
  · rintro ⟨n, hn⟩
    apply hn
    apply readRecords_eq_running
    · exact ⟨[], nameOnly, hlines, hname⟩
    · decide

end MpuPasses
