import MpuPasses.Ir

/-!
# `Find_Function` and `function.txt`

The pass writes the names of all functions but the helpers to `function.txt`, one a line, from where
the scripts read them (`readNames_functionTxt`).
-/

namespace MpuPasses

open Chars

/-- The functions that the pass leaves out. -/
def findSkips : List Str :=
  [mpuConfigName, mpuZeroRegionName, readCallerAddrName, readCallerSizeName, configExecuteName,
    readExecuteName]

/-- `Funcs`. -/
def findFunction (M : IrModule) : List Str := M.names.filter fun name => name ∉ findSkips

/-- `function.txt`. -/
def functionTxt (M : IrModule) : Str := (findFunction M).flatMap fun name => name ++ ['\n']

/-- The scripts' loop over the lines of the file, up to a blank one. -/
def readNames (text : Str) : List Str :=
  ((readlines text).takeWhile fun line => line ≠ ['\n']).map strip

theorem mem_findFunction {M : IrModule} {name : Str} :
    name ∈ findFunction M ↔ name ∈ M.names ∧ name ∉ findSkips := by
  unfold findFunction
  rw [List.mem_filter, decide_eq_true_iff]

/-- The scripts read the names of a list that have no white space around them. -/
theorem readNames_lines {names : List Str}
    (h : ∀ name ∈ names, name ≠ [] ∧ strip name = name ∧ OneLine name) :
    readNames (names.flatMap fun name => name ++ ['\n']) = names := by
  unfold readNames
  induction names with
  | nil => rfl
  | cons name names ih =>
    obtain ⟨⟨hne, htrim, hnl⟩, hrest⟩ := List.forall_mem_cons.mp h
    have hline : name ++ ['\n'] ≠ ['\n'] := by simpa using hne
    have hpad : ∀ c ∈ ([] : Str), isSpace c = true := by simp
    have hpost : ∀ c ∈ ['\n'], isSpace c = true := List.forall_mem_singleton.mpr rfl
    have hstrip : strip (name ++ ['\n']) = name := (strip_pad hpad hpost name).trans htrim
    rw [List.flatMap_cons, List.append_assoc, List.singleton_append, readlines_append hnl,
      List.takeWhile_cons_of_pos (by simpa using hline), List.map_cons, hstrip, ih hrest]

/-- The scripts read the names that the pass has written. -/
theorem readNames_flatMap {names : List Str}
    (h : ∀ name ∈ names, name ≠ [] ∧ name.any isSpace = false) :
    readNames (names.flatMap fun name => name ++ ['\n']) = names := by
  apply readNames_lines
  intro name hname
  obtain ⟨hne, hany⟩ := h name hname
  have hplain : ∀ c ∈ name, isSpace c = false := by simpa using hany
  have hnil : ∀ c ∈ ([] : Str), isSpace c = true := by simp
  have hstrip := strip_append hplain hne hnil
  rw [List.append_nil] at hstrip
  exact ⟨hne, hstrip, fun hmem => absurd (hplain '\n' hmem) (by decide),
    fun hmem => absurd (hplain '\r' hmem) (by decide)⟩

theorem readNames_functionTxt (L : LinkedModule) :
    readNames (functionTxt L.functions) = findFunction L.functions :=
  readNames_flatMap fun name hname => L.plain name (mem_findFunction.mp hname).1

end MpuPasses
