import MpuPasses.ConnectFunction
import MpuPasses.InsertFunction
import MpuPasses.SetOperand

/-!
# The three passes together

`Insert_Function`, `Connect_Function` and `Set_Operand` run one after the other. `Set_Operand` tells
a configuration of the callee from the restoring call at the end of a function only by the next
instruction being a call. `Site` lists what can stand at a place of an instrumented block; from it
`runPasses_right_iff` says when all operands end up right.
-/

namespace MpuPasses

open Chars

/-- `Insert_Function`, then `Connect_Function`. -/
def instrument (stale : Stale) (M : IrModule) : Option IrModule :=
  (insertModule M).map (connectModule stale)

/-- All three passes. -/
def runPasses (stale : Stale) (funcs : List LinkFunc) (M : IrModule) : Option IrModule :=
  (instrument stale M).bind (setModule funcs)

/-! ## Instrumented blocks -/

/-- A block after the first two passes. -/
def instrumentedBlock (L : LinkedModule) (stale : Stale) (F : Function) (b : Block) : Block :=
  if F.name ∈ insertSkips then b
  else if F.name ∈ connectSkips then insertedBlock F b
  else connectBlock L.inserted.functions stale (insertedFunction F) (insertedBlock F b)

section Instrument

variable {L : LinkedModule} {stale : Stale} {F : Function}

theorem keepsShape_instrumentedBlock : KeepsShape (instrumentedBlock L stale F) := by
  intro b
  unfold instrumentedBlock
  split_ifs <;> exact ⟨rfl, rfl⟩

theorem mem_connectSkips_iff {name : Str} :
    name ∈ connectSkips ↔ name = mainName ∨ name ∈ insertSkips := by
  have hperm : connectSkips.Perm (mainName :: insertSkips) := by decide
  rw [hperm.mem_iff, List.mem_cons]

theorem mem_connectSkips_of_mem_insertSkips {name : Str} (h : name ∈ insertSkips) :
    name ∈ connectSkips := mem_connectSkips_iff.mpr (.inr h)

theorem connectFunction_insertedFunction :
    connectFunction L.inserted.functions stale (insertedFunction F) =
      F.mapBlocks (instrumentedBlock L stale F) := by
  unfold connectFunction instrumentedBlock
  rw [insertedFunction_name]
  by_cases hi : F.name ∈ insertSkips
  · have hF : insertedFunction F = F := if_pos hi
    rw [if_pos (mem_connectSkips_of_mem_insertSkips hi), hF]
    simp only [if_pos hi, Function.mapBlocks_id]
  · have hF : insertedFunction F = F.mapBlocks (insertedBlock F) := if_neg hi
    by_cases hc : F.name ∈ connectSkips
    · rw [if_pos hc, hF]
      simp only [if_neg hi, if_pos hc]
    · rw [if_neg hc]
      simp only [if_neg hi, if_neg hc]
      rw [hF, Function.mapBlocks_mapBlocks]
      rfl

theorem instrument_eq (hd : L.functions.Direct) : instrument stale L.functions =
    some (L.functions.map fun F => F.mapBlocks (instrumentedBlock L stale F)) := by
  unfold instrument
  rw [insertModule_eq hd, Option.map_some]
  unfold connectModule
  rw [List.map_map]
  exact congrArg some (List.map_congr_left fun F _ => connectFunction_insertedFunction)

/-- The arguments of the call at the end of a connected function. -/
def restoreArgs (stale : Stale) (F : Function) (b : Block) : Val × Val :=
  if F.IsFront b then callerVals (insertedFunction F) else stale F.name b.label

/-- What stands in front of a block of a processed function. -/
def frontCalls (L : LinkedModule) (F : Function) (b : Block) : List Instr :=
  (if F.name ∉ connectSkips ∧ F.IsFront b then
      readCalls L.inserted.functions (insertedFunction F) else []) ++
    if F.IsFront b then [entryCall (some mpuConfigName)] else []

/-- What stands at its end. -/
def backCalls (stale : Stale) (F : Function) (b : Block) : List Instr :=
  if F.name ∉ connectSkips ∧ F.IsBack b then
    [mpuCall (some mpuConfigName) (restoreArgs stale F b).1 (restoreArgs stale F b).2 (.const 2)]
  else []

variable {b : Block}

/-- The block depends on the variables only where they are read unset. -/
theorem instrumentedBlock_congr {stale' : Stale} (h : F.name ∉ connectSkips → F.IsBack b →
    ¬ F.IsFront b → stale F.name b.label = stale' F.name b.label) :
    instrumentedBlock L stale F b = instrumentedBlock L stale' F b := by
  unfold instrumentedBlock
  by_cases hi : F.name ∈ insertSkips
  · rw [if_pos hi, if_pos hi]
  by_cases hc : F.name ∈ connectSkips
  · rw [if_pos hc, if_pos hc]
  have hF : insertedFunction F = F.mapBlocks (insertedBlock F) := if_neg hi
  have hg := keepsShape_insertedBlock F
  rw [if_neg hi, if_neg hi, if_neg hc, if_neg hc]
  unfold connectBlock
  rw [insertedFunction_name, hF]
  by_cases hback : (F.mapBlocks (insertedBlock F)).IsBack (insertedBlock F b)
  · by_cases hfront : (F.mapBlocks (insertedBlock F)).IsFront (insertedBlock F b)
    · simp only [if_pos hfront]
    · have hstale := h hc ((Function.isBack_mapBlocks hg b).mp hback)
        (mt (Function.isFront_mapBlocks hg b).mpr hfront)
      have hlabel : (insertedBlock F b).label = b.label := rfl
      rw [hlabel, hstale]
  · simp only [if_neg hback]

theorem runPasses_congr (hd : L.functions.Direct) {stale' : Stale}
    (h : Stale.Agree L.functions stale stale') (funcs : List LinkFunc) :
    runPasses stale funcs L.functions = runPasses stale' funcs L.functions := by
  unfold runPasses
  rw [instrument_eq hd, instrument_eq hd]
  refine congrArg (fun M => (some M).bind (setModule funcs)) (List.map_congr_left fun F hF => ?_)
  unfold Function.mapBlocks
  congr 1
  exact List.map_congr_left fun b hb =>
    instrumentedBlock_congr fun hc hback hfront => h F hF hc b hb hback hfront

theorem isFront_insertedFunction (hi : F.name ∉ insertSkips) :
    (insertedFunction F).IsFront (insertedBlock F b) ↔ F.IsFront b := by
  have hF : insertedFunction F = F.mapBlocks (insertedBlock F) := if_neg hi
  rw [hF]
  exact Function.isFront_mapBlocks (keepsShape_insertedBlock F) b

theorem isBack_insertedFunction (hi : F.name ∉ insertSkips) :
    (insertedFunction F).IsBack (insertedBlock F b) ↔ F.IsBack b := by
  have hF : insertedFunction F = F.mapBlocks (insertedBlock F) := if_neg hi
  rw [hF]
  exact Function.isBack_mapBlocks (keepsShape_insertedBlock F) b

theorem instrumentedBlock_insts (hi : F.name ∉ insertSkips) (b : Block) :
    (instrumentedBlock L stale F b).insts =
      frontCalls L F b ++ b.insts.flatMap bracket ++ backCalls stale F b := by
  unfold instrumentedBlock frontCalls backCalls
  rw [if_neg hi]
  by_cases hc : F.name ∈ connectSkips
  · have hnot : ∀ P : Prop, ¬ (F.name ∉ connectSkips ∧ P) := fun _ h => h.1 hc
    simp only [if_pos hc, if_neg (hnot _), List.nil_append, List.append_nil]
    rfl
  · rw [if_neg hc]
    unfold connectBlock restoreArgs
    simp only [isFront_insertedFunction hi, isBack_insertedFunction hi, insertedFunction_name,
      L.inserted.find_config, hc, not_false_eq_true, true_and]
    unfold insertedBlock
    simp only [List.append_assoc]

/-- What can stand at a place of an instrumented block, with the node behind it, when the source
does not call `MPU_Config` itself. -/
inductive Site (L : LinkedModule) (stale : Stale) (F : Function) (b : Block) :
    Instr × Option Instr → Prop
  | source {i : Instr} {next : Option Instr} (direct : i.Direct L.functions.names)
      (plain : i.callee? ≠ some mpuConfigName) : Site L stale F b (i, next)
  | own {a z : Val} {next : Option Instr} (processed : F.name ∉ insertSkips) :
      Site L stale F b (mpuCall (some mpuConfigName) a z (.const 1), next)
  | callee {a z : Val} {h : Str} {args : List Val} {res : Option ℕ}
      (processed : F.name ∉ insertSkips) (mem : .call (some h) args res ∈ b.insts)
      (bracketed : Bracketed h) :
      Site L stale F b
        (mpuCall (some mpuConfigName) a z (.const 2), some (.call (some h) args res))
  | restore (connected : F.name ∉ connectSkips) (back : F.IsBack b) :
      Site L stale F b (mpuCall (some mpuConfigName) (restoreArgs stale F b).1
        (restoreArgs stale F b).2 (.const 2), none)

theorem readCalls_plain {G : Function} {i : Instr} (hi : i ∈ readCalls L.inserted.functions G) :
    i.Direct L.functions.names ∧ i.callee? ≠ some mpuConfigName := by
  rw [readCalls_eq] at hi
  simp only [List.mem_cons, List.not_mem_nil, or_false] at hi
  rcases hi with rfl | rfl
  · exact ⟨L.has_addr, (by decide : some readCallerAddrName ≠ some mpuConfigName)⟩
  · exact ⟨L.has_size, (by decide : some readCallerSizeName ≠ some mpuConfigName)⟩

theorem site_of_mem (hd : ∀ i ∈ b.insts, i.Direct L.functions.names)
    (hnone : ∀ i ∈ b.insts, i.callee? ≠ some mpuConfigName) {p : Instr × Option Instr}
    (hp : p ∈ Cursor.withNext none (instrumentedBlock L stale F b).insts) : Site L stale F b p := by
  have hsource : p.1 ∈ b.insts → Site L stale F b p := fun h => .source (hd _ h) (hnone _ h)
  by_cases hi : F.name ∈ insertSkips
  · unfold instrumentedBlock at hp
    rw [if_pos hi] at hp
    exact hsource (Cursor.fst_mem_of_mem_withNext hp)
  · rw [instrumentedBlock_insts hi, Cursor.withNext_append, Cursor.withNext_append] at hp
    simp only [List.mem_append] at hp
    rcases hp with (hp | hp) | hp
    · unfold frontCalls at hp
      rw [Cursor.withNext_append, List.mem_append] at hp
      rcases hp with hp | hp
      · have hmem := Cursor.fst_mem_of_mem_withNext hp
        split_ifs at hmem
        · obtain ⟨hdirect, hplain⟩ := readCalls_plain hmem
          exact .source hdirect hplain
        · cases hmem
      · split_ifs at hp
        · obtain rfl := List.mem_singleton.mp hp
          exact .own hi
        · cases hp
    · rcases mem_withNext_flatMap_bracket hd hp with h | h | ⟨h, args, res, hmem, hb, rfl⟩
      · exact hsource h
      · obtain ⟨i, next⟩ := p
        obtain rfl : i = _ := h
        exact .own hi
      · exact .callee hi hmem hb
    · unfold backCalls at hp
      split_ifs at hp with h
      · obtain rfl := List.mem_singleton.mp hp
        exact .restore h.1 h.2
      · cases hp

/-! ## Operands -/

/-- The operands of a region: the start of a function's record and the field of its size. -/
def HasRegion (funcs : List LinkFunc) (name : Str) (start size : Val) : Prop :=
  ∃ g ∈ funcs, g.name = name ∧ start = .const g.regionStart ∧
    ∃ k, toSize g.regionSize = some k ∧ size = .const k

/-- What the operands of a call of `MPU_Config` must be: region 1 and the enclosing function's own
region; region 2 and the region of the function called next; or region 2 and the results of the two
reading calls at the function's start, in the call that ends its last block. -/
def ConfigRight (funcs : List LinkFunc) (F : Function) (b : Block) (args : List Val)
    (next : Option Instr) : Prop :=
  (∃ start size, HasRegion funcs F.name start size ∧ args = [start, size, .const 1]) ∨
  (∃ callee calleeArgs res start size, next = some (.call (some callee) calleeArgs res) ∧
    HasRegion funcs callee start size ∧ args = [start, size, .const 2]) ∨
  (F.IsBack b ∧ next = none ∧ ∃ addr size front rest, F.blocks.head? = some front ∧
    front.insts = .call (some readCallerAddrName) [] (some addr) ::
      .call (some readCallerSizeName) [] (some size) :: rest ∧
    args = [.reg addr, .reg size, .const 2])

/-- Every call of `MPU_Config` has the right operands. -/
def OperandsRight (funcs : List LinkFunc) (M : IrModule) : Prop :=
  ∀ F ∈ M, ∀ b ∈ F.blocks, ∀ p ∈ Cursor.withNext none b.insts, ∀ args res,
    p.1 = .call (some mpuConfigName) args res → ConfigRight funcs F b args p.2

/-- The functions that are processed and the callees that are bracketed have records. -/
structure Entries (T : LinkTable) (M : IrModule) : Prop where
  own : ∀ F ∈ M, F.name ∉ insertSkips → F.blocks ≠ [] → F.name ∈ T.table.map LinkFunc.name
  callee : ∀ F ∈ M, F.name ∉ insertSkips → ∀ b ∈ F.blocks, ∀ i ∈ b.insts, ∀ h ∈ i.callee?,
    Bracketed h → h ∈ T.table.map LinkFunc.name

variable {T : LinkTable}

/-- At every site the pass goes through. -/
theorem Site.isSome_setInst (hown : F.name ∉ insertSkips → F.name ∈ T.table.map LinkFunc.name)
    (hcallee : F.name ∉ insertSkips → ∀ i ∈ b.insts, ∀ h ∈ i.callee?, Bracketed h →
      h ∈ T.table.map LinkFunc.name)
    {p : Instr × Option Instr} (hp : Site L stale F b p) :
    (setInst T.table F.name p.1 p.2).isSome := by
  cases hp with
  | @source i next direct plain =>
    cases i with
    | other opcode operands res => rfl
    | call callee args res =>
      cases callee with
      | none => cases direct
      | some h => rw [setInst_of_ne fun heq => plain (congrArg some heq)]; rfl
  | own processed =>
    obtain ⟨g, -, -, k, -, -, -, hregion⟩ := T.exists_regionOf (hown processed)
    rw [setInst_own hregion]
    rfl
  | callee processed mem bracketed =>
    obtain ⟨g, -, -, k, -, -, -, hregion⟩ :=
      T.exists_regionOf (hcallee processed _ mem _ rfl bracketed)
    rw [setInst_callee hregion]
    rfl
  | restore connected back => rfl

/-- A block after all passes. -/
def finalBlock (L : LinkedModule) (stale : Stale) (T : LinkTable) (F : Function) (b : Block) : Block :=
  settledBlock T.table F.name (instrumentedBlock L stale F b)

theorem keepsShape_finalBlock : KeepsShape (finalBlock L stale T F) := fun b =>
  ⟨(keepsShape_instrumentedBlock b).1, (keepsShape_instrumentedBlock b).2⟩

/-- The source does not call `MPU_Config`. -/
def NoConfig (M : IrModule) : Prop :=
  ∀ F ∈ M, ∀ b ∈ F.blocks, ∀ i ∈ b.insts, i.callee? ≠ some mpuConfigName

instance (M : IrModule) : Decidable (NoConfig M) := by unfold NoConfig; infer_instance

theorem site_of_mem_module (hd : L.functions.Direct) (hn : NoConfig L.functions)
    (hF : F ∈ L.functions) (hb : b ∈ F.blocks) {p : Instr × Option Instr}
    (hp : p ∈ Cursor.withNext none (instrumentedBlock L stale F b).insts) : Site L stale F b p :=
  site_of_mem (hd F hF b hb) (hn F hF b hb) hp

theorem runPasses_eq (hd : L.functions.Direct) (hn : NoConfig L.functions)
    (he : Entries T L.functions) : runPasses stale T.table L.functions =
      some (L.functions.map fun F => F.mapBlocks (finalBlock L stale T F)) := by
  unfold runPasses
  rw [instrument_eq hd, Option.bind_some, setModule_eq, List.map_map]
  · refine congrArg some (List.map_congr_left fun F _ => ?_)
    exact Function.mapBlocks_mapBlocks F _ _
  · intro F' hF' b' hb' p hp
    obtain ⟨F, hF, rfl⟩ := List.mem_map.mp hF'
    obtain ⟨b, hb, rfl⟩ := List.mem_map.mp hb'
    exact (site_of_mem_module hd hn hF hb hp).isSome_setInst
      (fun hi => he.own F hF hi (List.ne_nil_of_mem hb)) (fun hi => he.callee F hF hi b hb)

theorem settledInst_of_ne {funcs : List LinkFunc} {fname : Str} {p : Instr × Option Instr}
    {names : List Str} (hd : p.1.Direct names) (hne : p.1.callee? ≠ some mpuConfigName) :
    settledInst funcs fname p = p.1 := by
  obtain ⟨i, next⟩ := p
  cases i with
  | other opcode operands res => rfl
  | call callee args res =>
    cases callee with
    | none => cases hd
    | some h => exact settledInst_of_eq (setInst_of_ne (fun heq => hne (congrArg some heq)) _ _)

theorem map_settledInst_eq {funcs : List LinkFunc} {fname : Str} {names : List Str}
    {l : List Instr} (hl : ∀ i ∈ l, i.Direct names ∧ i.callee? ≠ some mpuConfigName)
    (c : Option Instr) : (Cursor.withNext c l).map (settledInst funcs fname) = l := by
  have hfst : ∀ p ∈ Cursor.withNext c l, settledInst funcs fname p = p.1 := by
    intro p hp
    obtain ⟨hd, hne⟩ := hl p.1 (Cursor.fst_mem_of_mem_withNext hp)
    exact settledInst_of_ne hd hne
  rw [List.map_congr_left hfst, Cursor.map_fst_withNext]

variable (L stale T) in
/-- The first block of a connected function still begins with the reading calls. -/
theorem finalBlock_front_insts (hc : F.name ∉ connectSkips) (hfront : F.IsFront b) :
    ∃ rest, (finalBlock L stale T F b).insts =
      readCalls L.inserted.functions (insertedFunction F) ++ rest := by
  have hi : F.name ∉ insertSkips := fun h => hc (mem_connectSkips_of_mem_insertSkips h)
  unfold finalBlock settledBlock
  simp only [instrumentedBlock_insts hi]
  unfold frontCalls
  rw [if_pos ⟨hc, hfront⟩, List.append_assoc, List.append_assoc, Cursor.withNext_append,
    List.map_append, map_settledInst_eq fun i hi => readCalls_plain hi]
  exact ⟨_, rfl⟩

variable (L stale T) in
/-- The last block of a connected function still ends with the restoring call. -/
theorem finalBlock_back_insts (hc : F.name ∉ connectSkips) (hback : F.IsBack b) :
    ∃ rest, (finalBlock L stale T F b).insts = rest ++ [mpuCall (some mpuConfigName)
      (restoreArgs stale F b).1 (restoreArgs stale F b).2 (.const 2)] := by
  have hi : F.name ∉ insertSkips := fun h => hc (mem_connectSkips_of_mem_insertSkips h)
  unfold finalBlock settledBlock
  simp only [instrumentedBlock_insts hi]
  unfold backCalls
  rw [if_pos ⟨hc, hback⟩, Cursor.withNext_append, List.map_append]
  exact ⟨_, rfl⟩

/-- A configuration at a place of a final block is right if it is not a restoring call with other
values than those read. -/
theorem configRight_of_mem (hd : L.functions.Direct) (hn : NoConfig L.functions)
    (he : Entries T L.functions) (hF : F ∈ L.functions) (hb : b ∈ F.blocks)
    (hargs : F.name ∉ connectSkips → F.IsBack b →
      restoreArgs stale F b = callerVals (insertedFunction F))
    {p : Instr × Option Instr} (hp : p ∈ Cursor.withNext none (finalBlock L stale T F b).insts)
    {args : List Val} {res : Option ℕ} (hcall : p.1 = .call (some mpuConfigName) args res) :
    ConfigRight T.table (F.mapBlocks (finalBlock L stale T F)) (finalBlock L stale T F b) args p.2 := by
  have hname : (F.mapBlocks (finalBlock L stale T F)).name = F.name := rfl
  obtain ⟨q, hq, heq, hend, hnext⟩ := mem_withNext_settledBlock hp
  rw [hcall] at heq
  have hsite := site_of_mem_module hd hn hF hb hq
  cases hsite with
  | source direct plain =>
    rw [settledInst_of_ne direct plain] at heq
    exact absurd (congrArg Instr.callee? heq.symm) plain
  | own processed =>
    obtain ⟨g, hg, hgname, k, hk, -, -, hregion⟩ :=
      T.exists_regionOf (he.own F hF processed (List.ne_nil_of_mem hb))
    rw [settledInst_of_eq (setInst_own hregion)] at heq
    cases heq
    exact .inl ⟨_, _, ⟨g, hg, hgname, rfl, k, hk, rfl⟩, rfl⟩
  | @callee a z h calleeArgs calleeRes processed mem bracketed =>
    obtain ⟨g, hg, hgname, k, hk, -, -, hregion⟩ :=
      T.exists_regionOf (he.callee F hF processed b hb _ mem h rfl bracketed)
    rw [settledInst_of_eq (setInst_callee hregion _ _)] at heq
    cases heq
    -- the instruction behind it is the call itself, which the pass leaves alone
    obtain ⟨q', -, hfst, hq'⟩ := hnext _ rfl
    obtain ⟨i, m⟩ := q'
    obtain rfl : i = _ := hfst
    rw [settledInst_of_eq (setInst_of_ne bracketed.1 _ _)] at hq'
    exact .inr (.inl ⟨h, calleeArgs, calleeRes, _, _, hq', ⟨g, hg, hgname, rfl, k, hk, rfl⟩, rfl⟩)
  | restore connected back =>
    rw [settledInst_of_eq setInst_end, hargs connected back] at heq
    cases heq
    obtain ⟨front, bs, hbs⟩ := List.exists_cons_of_ne_nil (List.ne_nil_of_mem hb)
    have hfront : F.IsFront front := Function.isFront_of_head? (hbs ▸ rfl)
    obtain ⟨rest, hrest⟩ :=
      finalBlock_front_insts L stale T connected hfront
    rw [readCalls_eq] at hrest
    refine .inr (.inr ⟨(Function.isBack_mapBlocks keepsShape_finalBlock b).mpr back, hend rfl,
      _, _, finalBlock L stale T F front, rest, ?_, hrest, rfl⟩)
    unfold Function.mapBlocks
    rw [hbs]
    rfl

end Instrument

/-- The file that the benchmark's two functions are laid out in. -/
def benchmarkTable : LinkTable where
  funcs := benchmarkPair
  out := benchmarkLayout
  table := benchmarkLayout.map Func.toLinkFunc

theorem entries_benchmark : Entries benchmarkTable benchmarkModule.functions :=
  ⟨by decide, by decide⟩

/-- The passes run through and all operands are right, whatever a variable without a value holds. -/
def PassesRight (T : LinkTable) (M : IrModule) : Prop :=
  ∀ stale, ∃ M', runPasses stale T.table M = some M' ∧ OperandsRight T.table M'

/-- **When all operands are right.** For a module with direct calls, none of them to `MPU_Config`,
and records for all functions concerned, every operand is right exactly if in every connected function
the last block is the first one. -/
theorem runPasses_right_iff (L : LinkedModule) (T : LinkTable) (hd : L.functions.Direct)
    (hn : NoConfig L.functions) (he : Entries T L.functions) :
    PassesRight T L.functions ↔
      ∀ F ∈ L.functions, F.name ∉ connectSkips → ∀ b ∈ F.blocks, F.IsBack b → F.IsFront b := by
  constructor
  · intro h F hF hc b hb hback
    obtain ⟨M, hM, hright⟩ := h constVals
    rw [runPasses_eq hd hn he] at hM
    cases hM
    by_contra hfront
    apply constVals_ne_callerVals F (insertedFunction F) b.label
    obtain ⟨rest, hrest⟩ := finalBlock_back_insts L constVals T hc hback
    have hargs : restoreArgs constVals F b = constVals F.name b.label := if_neg hfront
    have hconfig := hright _ (List.mem_map_of_mem hF) _ (List.mem_map_of_mem hb)
      (mpuCall (some mpuConfigName) (restoreArgs constVals F b).1 (restoreArgs constVals F b).2
        (.const 2), none) (by rw [hrest, Cursor.withNext_append]; simp) _ _ rfl
    obtain ⟨_, _, _, heq⟩ | ⟨_, _, _, _, _, heq, _⟩ |
      ⟨_, _, addr, size, front', rest', hhead, hinsts, heq⟩ := hconfig
    · simp at heq
    · cases heq
    · rw [Function.head?_mapBlocks] at hhead
      obtain ⟨front, hfirst, rfl⟩ := Option.map_eq_some_iff.mp hhead
      have hisfront : F.IsFront front := Function.isFront_of_head? hfirst
      obtain ⟨rest'', hrest''⟩ := finalBlock_front_insts L constVals T hc hisfront
      rw [hrest'', readCalls_eq] at hinsts
      simp only [List.cons_append, List.cons.injEq, Instr.call.injEq, Option.some.injEq,
        true_and] at hinsts heq
      rw [← hargs]
      exact Prod.ext (heq.1.trans (by rw [← hinsts.1]; rfl))
        (heq.2.1.trans (by rw [← hinsts.2.1]; rfl))
  · intro h stale
    refine ⟨_, runPasses_eq hd hn he, ?_⟩
    intro F' hF' b' hb' p hp args res hcall
    obtain ⟨F, hF, rfl⟩ := List.mem_map.mp hF'
    obtain ⟨b, hb, rfl⟩ := List.mem_map.mp hb'
    exact configRight_of_mem hd hn he hF hb (fun hc hback => if_pos (h F hF hc b hb hback)) hp hcall

/-- Variables that hold something else in the last block leave a wrong operand in a function of two
blocks. -/
theorem not_operandsRight_stale : benchmarkModule.functions.Direct ∧
    NoConfig benchmarkModule.functions ∧ Entries benchmarkTable benchmarkModule.functions ∧
    ¬ PassesRight benchmarkTable benchmarkModule.functions := by
  refine ⟨by decide, by decide, entries_benchmark, fun h => ?_⟩
  obtain ⟨M, hM, hright⟩ := h constVals
  have hwrong : ∀ M ∈ runPasses constVals benchmarkTable.table benchmarkModule.functions,
      ∃ F ∈ M, ∃ b ∈ F.blocks,
        (mpuCall (some mpuConfigName) (.const 0) (.const 0) (.const 2), none) ∈
          Cursor.withNext none b.insts := by decide
  obtain ⟨F, hF, b, hb, hp⟩ := hwrong M hM
  obtain ⟨_, _, _, heq⟩ | ⟨_, _, _, _, _, heq, _⟩ | ⟨_, _, _, _, _, _, _, _, heq⟩ :=
    hright F hF b hb _ hp _ _ rfl
  · simp at heq
  · cases heq
  · simp at heq

theorem entries_leaf : Entries benchmarkTable leafModule.functions :=
  ⟨by decide, by decide⟩

/-- All functions have one block. -/
theorem operandsRight_leaf : PassesRight benchmarkTable leafModule.functions :=
  (runPasses_right_iff leafModule benchmarkTable (by decide) (by decide) entries_leaf).mpr (by decide)

end MpuPasses
