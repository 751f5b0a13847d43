import MpuPasses.FindFunction
import MpuPasses.FunctionSize

/-!
# `function_size.py` on the names of `function.txt`

`Find_Function` writes the names of all functions of the module, declarations among them, and the
script measures each of them in the listing before it lays out the regions. It has no test for a
name without a header; `givesRegions_iff` says for which modules it gets through.
-/

namespace MpuPasses

open Chars

/-! ## The script -/

theorem newline_notMem_of_mem_readNames {text name : Str} (h : name ∈ readNames text) :
    '\n' ∉ name := by
  obtain ⟨line, hline, rfl⟩ := List.mem_map.mp h
  exact newline_notMem_strip ((List.takeWhile_sublist _).mem hline)

/-- `funcs`, as the first loop fills it. -/
def readFuncs (text : Str) : List Func :=
  (readNames text).pmap (fun name h => { name := name, oneLine := h })
    fun _ => newline_notMem_of_mem_readNames

/-- One turn of the loop over `funcs`; `none` is an exception. -/
def measureFunc (lines : List Str) (f : Func) : Option Func :=
  (functionSizeOf lines f.name).map fun size => { f with functionSize := size }

/-- The records of `Link_addr.txt`. -/
def linkRecords (text : Str) (lines : List Str) : Option (List Func) :=
  ((readFuncs text).mapM (measureFunc lines)).bind layout

/-! ## Names and records -/

variable {M : IrModule} {lines : List Str}

theorem readFuncs_map_name (text : Str) : (readFuncs text).map Func.name = readNames text := by
  unfold readFuncs
  rw [List.map_pmap, List.pmap_eq_map, List.map_id']

theorem readFuncs_functionTxt (hplain : ∀ name ∈ M.names, name ≠ [] ∧ name.any isSpace = false) :
    (readFuncs (functionTxt M)).map Func.name = findFunction M := by
  rw [readFuncs_map_name]
  exact readNames_flatMap fun name hname => hplain name (mem_findFunction.mp hname).1

theorem measureFunc_eq_some {f g : Func} (h : measureFunc lines f = some g) :
    g.name = f.name ∧ functionSizeOf lines g.name = some g.functionSize := by
  obtain ⟨size, hsize, rfl⟩ := Option.map_eq_some_iff.mp h
  exact ⟨rfl, hsize⟩

theorem measureFunc_isSome (f : Func) :
    (measureFunc lines f).isSome = (functionSizeOf lines f.name).isSome := by
  unfold measureFunc
  rw [Option.isSome_map]

/-- The first part of the script, when every name has a size. -/
theorem exists_measured (fs : List Func) (h : ∀ f ∈ fs, (functionSizeOf lines f.name).isSome) :
    ∃ gs, fs.mapM (measureFunc lines) = some gs ∧ gs.map Func.name = fs.map Func.name ∧
      ∀ g ∈ gs, functionSizeOf lines g.name = some g.functionSize := by
  have hturn : ∀ f ∈ fs, ∃ g, measureFunc lines f = some g ∧
      (g.name = f.name ∧ functionSizeOf lines g.name = some g.functionSize) := by
    intro f hf
    obtain ⟨g, hg⟩ := Option.isSome_iff_exists.mp ((measureFunc_isSome f).trans (h f hf))
    exact ⟨g, hg, measureFunc_eq_some hg⟩
  obtain ⟨gs, hgs, hall⟩ := Loop.exists_mapM_eq_some hturn
  refine ⟨gs, hgs, ?_⟩
  clear hgs hturn h
  induction hall with
  | nil => simp
  | cons hg _ ih =>
    obtain ⟨hnames, hsizes⟩ := ih
    constructor
    · rw [List.map_cons, List.map_cons, hg.1, hnames]
    · exact List.forall_mem_cons.mpr ⟨hg.2, hsizes⟩

/-! ## The result -/

/-- The listing of a module: one header with at least two lines for every function with a body, and
none for a declaration. -/
structure Listing.Describes (L : Listing) (M : IrModule) : Prop where
  body : ∀ F ∈ M, F.blocks ≠ [] → ∃ f ∈ L.symbols, f.name = F.name ∧ 2 ≤ f.items.length
  declaration : ∀ F ∈ M, F.blocks = [] → ∀ f ∈ L.symbols, f.name ≠ F.name

/-- Every name of `function.txt` gets the size that the listing shows and a region that holds so many
bytes. -/
def GivesRegions (lines : List Str) (M : IrModule) : Prop :=
  ∃ out, linkRecords (functionTxt M) lines = some out ∧
    (out.map Func.name).Perm (findFunction M) ∧
    ∀ f ∈ out, functionSizeOf lines f.name = some f.functionSize ∧ f.functionSize ≤ f.regionSize

/-- A name without a size stops the script. -/
theorem GivesRegions.functionSizeOf_isSome (h : GivesRegions lines M) :
    ∀ name ∈ findFunction M, (functionSizeOf lines name).isSome := by
  obtain ⟨out, -, hnames, hout⟩ := h
  intro name hname
  obtain ⟨f, hf, rfl⟩ := List.mem_map.mp (hnames.mem_iff.mpr hname)
  exact Option.isSome_of_eq_some (hout f hf).1

theorem givesRegions_of_functionSizeOf
    (hplain : ∀ name ∈ M.names, name ≠ [] ∧ name.any isSpace = false) (hne : findFunction M ≠ [])
    (h : ∀ name ∈ findFunction M, (functionSizeOf lines name).isSome) : GivesRegions lines M := by
  have hfuncs := readFuncs_functionTxt hplain
  obtain ⟨gs, hgs, hnames, hsizes⟩ := exists_measured (readFuncs (functionTxt M))
    fun f hf => h f.name (hfuncs ▸ List.mem_map_of_mem hf)
  rw [hfuncs] at hnames
  have hgs_ne : gs ≠ [] := by
    rintro rfl
    exact hne hnames.symm
  have hlayout := layout_eq hgs_ne
  refine ⟨assign codeStart (sortFuncs gs), ?_, ?_, ?_⟩
  · unfold linkRecords
    rw [hgs]
    exact hlayout
  · rw [← hnames]
    exact perm_name_of_layout hlayout
  · intro f hf
    obtain ⟨g, hg, hkey⟩ := List.mem_map.mp
      ((perm_key_of_layout hlayout).mem_iff.mp (List.mem_map_of_mem hf))
    obtain ⟨hname, hsize⟩ := Prod.mk.inj hkey
    constructor
    · rw [← hname, ← hsize]
      exact hsizes g hg
    · rw [regionSize_of_mem_assign hf]
      exact le_regionSize _

/-- A library function that the module only declares. -/
def memcpyDeclaration : Function where
  name := "memcpy".toList
  blocks := []

/-- The two functions of the benchmark with a library function that one of them may call. -/
def libraryModule : IrModule := [mainFunction, sumFunction, memcpyDeclaration]

end MpuPasses
