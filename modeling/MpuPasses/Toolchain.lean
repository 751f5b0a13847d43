import MpuPasses.Lookups
import MpuPasses.SizeScript

/-!
# From the module to the operands

The whole build: `Find_Function` lists the functions, `Insert_Function` and `Connect_Function`
instrument the module, `function_size.py` measures the listed functions in the listing and writes their
regions to `Link_addr.txt`, and `Set_Operand` reads them back and sets the operands. `BB_label`, which
gives the blocks names that none of these reads, is left out. Every stage can fail on what the one
before hands over; `toolchain_spec` says when none does, for functions of one block, and that then the
operands are right. In a function of several blocks `Connect_Function` reads variables without a value,
so there nothing is said about getting through.
-/

namespace MpuPasses

open Chars

/-- The stages of the build on a module and the listing of its code. -/
def toolchain (stale : Stale) (M : IrModule) (lines : List Str) : Option IrModule := do
  let text := functionTxt M
  let inserted ← instrument stale M
  let records ← linkRecords text lines
  let funcs ← readLinkAddr (linkAddrText records)
  setModule funcs inserted

/-- What the build asks for: some function to list, a body for every function that is listed, no call of
a helper in what is listed, and regions whose numbers are `int`s. -/
structure Buildable (M : IrModule) (lines : List Str) : Prop where
  lists : ∃ F ∈ M, F.name ∉ findSkips
  bodies : ∀ F ∈ M, F.name ∉ findSkips → F.blocks ≠ []
  callees : ∀ F ∈ M, F.name ∉ findSkips → ∀ b ∈ F.blocks, ∀ i ∈ b.insts, ∀ h ∈ i.callee?,
    h ∉ helperNames
  fits : ∀ out, linkRecords (functionTxt M) lines = some out → ∀ f ∈ out, f.FitsInt

section Stages

variable {M : IrModule} {lines : List Str}

/-- A script that gets through has found some name, and a size for every one. -/
theorem sizes_of_linkRecords
    (hplain : ∀ name ∈ M.names, name ≠ [] ∧ name.any isSpace = false) {out : List Func}
    (h : linkRecords (functionTxt M) lines = some out) :
    findFunction M ≠ [] ∧ ∀ name ∈ findFunction M, (functionSizeOf lines name).isSome := by
  have hfuncs := readFuncs_functionTxt hplain
  unfold linkRecords at h
  obtain ⟨gs, hgs, hlayout⟩ := Option.bind_eq_some_iff.mp h
  have hsize : ∀ f g, measureFunc lines f = some g →
      g = { f with functionSize := (functionSizeOf lines f.name).getD 0 } := by
    intro f g hg
    obtain ⟨size, hsize, rfl⟩ := Option.map_eq_some_iff.mp hg
    rw [hsize]
    rfl
  obtain ⟨hmap, hall⟩ := Loop.eq_map_of_mapM_eq_some hsize hgs
  constructor
  · rw [← hfuncs]
    intro hnil
    apply ne_nil_of_layout hlayout
    rw [hmap, List.map_eq_nil_iff.mp hnil]
    rfl
  · intro name hname
    rw [← hfuncs] at hname
    obtain ⟨f, hf, rfl⟩ := List.mem_map.mp hname
    rw [← measureFunc_isSome]
    exact Option.isSome_of_eq_some (hall f hf)

theorem givesRegions_of_linkRecords
    (hplain : ∀ name ∈ M.names, name ≠ [] ∧ name.any isSpace = false) {out : List Func}
    (h : linkRecords (functionTxt M) lines = some out) : GivesRegions lines M :=
  let ⟨hne, hsizes⟩ := sizes_of_linkRecords hplain h
  givesRegions_of_functionSizeOf hplain hne hsizes

/-- The listing has a size for the functions with a body. -/
theorem Listing.Describes.functionSizeOf_isSome_iff {Ls : Listing} (hL : Ls.Describes M) {F : Function}
    (hF : F ∈ M) : (functionSizeOf Ls.lines F.name).isSome ↔ F.blocks ≠ [] := by
  constructor
  · intro hsome hdecl
    rw [functionSizeOf_of_not_found (Ls.headerText_not_infix_lines (hL.declaration F hF hdecl))] at hsome
    cases hsome
  · intro hbody
    obtain ⟨f, hf, hfname, h2⟩ := hL.body F hF hbody
    rw [← hfname]
    exact MpuPasses.functionSizeOf_isSome Ls hf h2

/-- The records that are read back are those of a layout, with the names that were listed. -/
theorem exists_linkTable {out : List Func} {table : List LinkFunc}
    (h : linkRecords (functionTxt M) lines = some out)
    (hread : readLinkAddr (linkAddrText out) = some table) :
    ∃ T : LinkTable, T.out = out ∧ T.table = table := by
  unfold linkRecords at h
  obtain ⟨gs, -, hlayout⟩ := Option.bind_eq_some_iff.mp h
  exact ⟨⟨gs, out, table, hlayout, hread⟩, rfl, rfl⟩

theorem table_names {out : List Func} {table : List LinkFunc}
    (hread : readLinkAddr (linkAddrText out) = some table) :
    table.map LinkFunc.name = out.map Func.name := by
  obtain ⟨-, rfl⟩ := readLinkAddr_eq_some_iff.mp hread
  rw [List.map_map]
  rfl

/-- The regions of a module are those of its listed functions. -/
theorem GivesRegions.mem_names {out : List Func} (h : GivesRegions lines M)
    (hout : linkRecords (functionTxt M) lines = some out) {name : Str} :
    name ∈ out.map Func.name ↔ name ∈ M.names ∧ name ∉ findSkips := by
  obtain ⟨out', hout', hnames, -⟩ := h
  obtain rfl := Option.some.inj (hout.symm.trans hout')
  rw [hnames.mem_iff, mem_findFunction]

theorem mem_withNext_of_append {α : Type*} (l m : List α) (x y : α) (c : Option α) :
    (x, some y) ∈ Cursor.withNext c (l ++ x :: y :: m) := by
  rw [Cursor.withNext_append, List.mem_append]
  exact .inr List.mem_cons_self

/-- A bracketed call of a final block is preceded by a call that configures region 2. -/
theorem mem_withNext_instrumentedBlock {L : LinkedModule} {stale : Stale} {F : Function} {b : Block}
    (hi : F.name ∉ insertSkips) {h : Str} {args : List Val} {res : Option ℕ} (hb : Bracketed h)
    (hmem : .call (some h) args res ∈ b.insts) :
    (beforeCall (some mpuConfigName), some (.call (some h) args res)) ∈
      Cursor.withNext none (instrumentedBlock L stale F b).insts := by
  obtain ⟨pre, post, hsplit⟩ := List.append_of_mem hmem
  have hinsts : (instrumentedBlock L stale F b).insts =
      (frontCalls L F b ++ pre.flatMap bracket) ++ beforeCall (some mpuConfigName) ::
        .call (some h) args res :: (afterCall (some mpuConfigName) :: post.flatMap bracket ++
          backCalls stale F b) := by
    rw [instrumentedBlock_insts hi, hsplit, List.flatMap_append, List.flatMap_cons,
      bracket_of_bracketed hb]
    simp
  rw [hinsts]
  exact mem_withNext_of_append ..

end Stages

section Build

variable {L : LinkedModule} {stale : Stale} {lines : List Str}

theorem toolchain_eq_some_iff {M M' : IrModule} : toolchain stale M lines = some M' ↔
    ∃ inserted records funcs, instrument stale M = some inserted ∧
      linkRecords (functionTxt M) lines = some records ∧
      readLinkAddr (linkAddrText records) = some funcs ∧ setModule funcs inserted = some M' := by
  unfold toolchain
  constructor
  · intro h
    obtain ⟨inserted, hinserted, h⟩ := Option.bind_eq_some_iff.mp h
    obtain ⟨records, hrecords, h⟩ := Option.bind_eq_some_iff.mp h
    obtain ⟨funcs, hfuncs, h⟩ := Option.bind_eq_some_iff.mp h
    exact ⟨inserted, records, funcs, hinserted, hrecords, hfuncs, h⟩
  · rintro ⟨inserted, records, funcs, hinserted, hrecords, hfuncs, h⟩
    rw [hinserted, Option.bind_eq_bind, Option.bind_some, hrecords, Option.bind_eq_bind,
      Option.bind_some, hfuncs]
    exact h

/-- What is built is what the three passes make with the records of the layout. -/
theorem exists_linkTable_of_toolchain {M M' : IrModule} (h : toolchain stale M lines = some M') :
    ∃ T : LinkTable, linkRecords (functionTxt M) lines = some T.out ∧
      runPasses stale T.table M = some M' := by
  obtain ⟨inserted, records, funcs, hinserted, hrecords, hfuncs, hset⟩ := toolchain_eq_some_iff.mp h
  obtain ⟨T, rfl, rfl⟩ := exists_linkTable hrecords hfuncs
  refine ⟨T, hrecords, ?_⟩
  unfold runPasses
  rw [hinserted]
  exact hset

/-- The operands of callees are set only for listed ones. -/
theorem callee_listed_of_setModule {T : LinkTable} {M' : IrModule}
    (hset : setModule T.table (L.functions.map fun F => F.mapBlocks (instrumentedBlock L stale F)) =
      some M') {F : Function} (hF : F ∈ L.functions) (hi : F.name ∉ insertSkips) {b : Block}
    (hb : b ∈ F.blocks) {i : Instr} (hmem : i ∈ b.insts) {h : Str} (hh : i.callee? = some h)
    (hbr : Bracketed h) : h ∈ T.table.map LinkFunc.name := by
  cases i with
  | other opcode operands res => cases hh
  | call callee args res =>
    cases hh
    have hplace : (beforeCall (some mpuConfigName), some (.call (some h) args res)) ∈
        Cursor.withNext none (instrumentedBlock L stale F b).insts :=
      mem_withNext_instrumentedBlock hi hbr hmem
    have hsome : (setInst T.table F.name (beforeCall (some mpuConfigName))
        (some (.call (some h) args res))).isSome :=
      (eq_of_setModule_eq_some hset).2 _ (List.mem_map_of_mem hF) _ (List.mem_map_of_mem hb) _ hplace
    have hreq : request F.name (beforeCall (some mpuConfigName)) (some (.call (some h) args res)) =
        .look h := request_callee _ _ _ h args res
    unfold setInst at hsome
    rw [hreq, Option.isSome_map] at hsome
    exact mem_of_regionOf_isSome hsome

/-- The names of the records are the listed ones. -/
theorem mem_table_iff {T : LinkTable} (hout : linkRecords (functionTxt L.functions) lines = some T.out)
    {name : Str} : name ∈ T.table.map LinkFunc.name ↔
      name ∈ L.functions.names ∧ name ∉ findSkips := by
  rw [table_names T.read]
  exact (givesRegions_of_linkRecords L.plain hout).mem_names hout

theorem entries_of_callees {T : LinkTable} (hd : L.functions.Direct)
    (hout : linkRecords (functionTxt L.functions) lines = some T.out)
    (hcallees : ∀ F ∈ L.functions, F.name ∉ findSkips → ∀ b ∈ F.blocks, ∀ i ∈ b.insts,
      ∀ h ∈ i.callee?, h ∉ helperNames) : Entries T L.functions := by
  constructor
  · intro F hF hi _
    rw [mem_table_iff hout]
    exact ⟨List.mem_map_of_mem hF, mt mem_insertSkips_iff.mpr hi⟩
  · intro F hF hi b hb i hmem h hh hbr
    rw [mem_table_iff hout, mem_findSkips_iff, not_or]
    exact ⟨callee_mem_names (hd F hF b hb i hmem) hh, not_not_intro hbr,
      hcallees F hF (mt mem_insertSkips_iff.mpr hi) b hb i hmem h hh⟩

/-- If the build runs through, it had what it asks for. -/
theorem buildable_of_toolchain (hd : L.functions.Direct) {Ls : Listing}
    (hL : Ls.Describes L.functions) {M : IrModule}
    (h : toolchain stale L.functions Ls.lines = some M) : Buildable L.functions Ls.lines := by
  obtain ⟨inserted, records, funcs, hinserted, hrecords, hfuncs, hset⟩ := toolchain_eq_some_iff.mp h
  obtain ⟨T, rfl, rfl⟩ := exists_linkTable hrecords hfuncs
  obtain ⟨hne, hsizes⟩ := sizes_of_linkRecords L.plain hrecords
  have hlists : ∃ F ∈ L.functions, F.name ∉ findSkips := by
    obtain ⟨name, hname⟩ := List.exists_mem_of_ne_nil _ hne
    obtain ⟨hmem, hskip⟩ := mem_findFunction.mp hname
    obtain ⟨F, hF, rfl⟩ := List.mem_map.mp hmem
    exact ⟨F, hF, hskip⟩
  have hbodies : ∀ F ∈ L.functions, F.name ∉ findSkips → F.blocks ≠ [] := fun F hF hskip =>
    (hL.functionSizeOf_isSome_iff hF).mp
      (hsizes F.name (mem_findFunction.mpr ⟨List.mem_map_of_mem hF, hskip⟩))
  rw [instrument_eq hd] at hinserted
  obtain rfl := Option.some.inj hinserted
  refine ⟨hlists, hbodies, fun F hF hskip b hb i hmem h hh hhelper => ?_, fun out hout f hf => ?_⟩
  · have hlisted := callee_listed_of_setModule hset hF (mt mem_insertSkips_iff.mp hskip) hb hmem hh
      (bracketed_of_mem_helperNames hhelper)
    exact ((mem_table_iff hrecords).mp hlisted).2 (mem_findSkips_iff.mpr (.inr hhelper))
  · obtain rfl := Option.some.inj (hrecords.symm.trans hout)
    exact (readLinkAddr_eq_some_iff.mp hfuncs).1 f hf

/-- With what it asks for, the build runs through. -/
theorem Buildable.exists_toolchain (hd : L.functions.Direct) (hn : NoConfig L.functions)
    {Ls : Listing} (hL : Ls.Describes L.functions) (h : Buildable L.functions Ls.lines) :
    (toolchain stale L.functions Ls.lines).isSome := by
  have hne : findFunction L.functions ≠ [] := by
    obtain ⟨F, hF, hskip⟩ := h.lists
    exact List.ne_nil_of_mem (mem_findFunction.mpr ⟨List.mem_map_of_mem hF, hskip⟩)
  have hsizes : ∀ name ∈ findFunction L.functions, (functionSizeOf Ls.lines name).isSome := by
    intro name hname
    obtain ⟨hmem, hskip⟩ := mem_findFunction.mp hname
    obtain ⟨F, hF, rfl⟩ := List.mem_map.mp hmem
    exact (hL.functionSizeOf_isSome_iff hF).mpr (h.bodies F hF hskip)
  obtain ⟨out, hout, -⟩ := givesRegions_of_functionSizeOf L.plain hne hsizes
  have hread := readLinkAddr_eq_some_iff.mpr ⟨h.fits out hout, rfl⟩
  obtain ⟨T, rfl, htable⟩ := exists_linkTable hout hread
  have hpasses : runPasses stale T.table L.functions = _ :=
    runPasses_eq hd hn (entries_of_callees hd hout h.callees)
  unfold runPasses at hpasses
  obtain ⟨inserted, hinserted, hset⟩ := Option.bind_eq_some_iff.mp hpasses
  exact Option.isSome_of_eq_some
    (toolchain_eq_some_iff.mpr ⟨inserted, T.out, T.table, hinserted, hout, T.read, hset⟩)

end Build

theorem leafModule_plain : ∀ name ∈ leafModule.functions.names, '<' ∉ name ∧ '>' ∉ name := by decide

/-- A function of two instructions, in a section of its own. -/
def shortSymbol (name : Str) (h : name ∈ leafModule.functions.names) : Symbol where
  pad := 8
  addr := 0
  name := name
  items := [movwAt 0 (by decide),
    { addr := 4, size := 2, pad := 1, text := "\t4770      \tbx\tlr".toList, size_eq := size_eq_two }]
  after := ["\n".toList]
  name_lt := (leafModule_plain name h).1
  name_gt := (leafModule_plain name h).2
  blank := wideSymbol.blank
  plain := wideSymbol.plain

/-- The code of the program, with `mpu_configure.c`. -/
def leafListing : Listing where
  preamble := ["\n".toList]
  symbols := leafModule.functions.names.pmap shortSymbol fun _ h => h
  plain := wideSymbol.plain

theorem buildable_leaf : Buildable leafModule.functions leafListing.lines := by
  refine ⟨by decide, by decide, by decide, ?_⟩
  have hfits : ∀ out ∈ linkRecords (functionTxt leafModule.functions) leafListing.lines,
      ∀ f ∈ out, f.FitsInt := by decide
  exact hfits

end MpuPasses
