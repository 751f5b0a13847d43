import MpuPasses.Ir

/-!
# `Connect_Function`

The pass reads the caller's region at the start of every function but `main` and the helpers, and
enables it again as region 2 at the end of the last block. Its variables `addr` and `size` are
declared inside the loop over the blocks and set only in the first one, so in a later block they
hold whatever they hold (`Stale`). `restoresCaller_iff` says on which functions every return
enables the caller again, `connectsCaller_iff` on which the variables hold what they should.
-/

namespace MpuPasses

open Chars

/-- The functions that the pass skips. -/
def connectSkips : List Str :=
  [readCallerAddrName, readCallerSizeName, mpuConfigName, mpuZeroRegionName, readExecuteName,
    configExecuteName, mainName]

/-- What `addr` and `size` hold in the iteration of a block that does not set them. Reading them there is
undefined; a value of this type assumes that they hold some operand, so that the pass goes on. What is
shown for every such value is not the whole of what can happen, unless no block reads them unset. -/
abbrev Stale := Str → ℕ → Val × Val

/-- No function that the pass changes has a second block, so the variables are not read unset. -/
def OneBlock (M : IrModule) : Prop := ∀ F ∈ M, F.name ∉ connectSkips → F.blocks.length ≤ 1

instance (M : IrModule) : Decidable (OneBlock M) := by unfold OneBlock; infer_instance

/-- The variables hold the same wherever they are read unset. -/
def Stale.Agree (M : IrModule) (stale stale' : Stale) : Prop :=
  ∀ F ∈ M, F.name ∉ connectSkips → ∀ b ∈ F.blocks, F.IsBack b → ¬ F.IsFront b →
    stale F.name b.label = stale' F.name b.label

/-- The results of the two calls in the first block. -/
def callerVals (F : Function) : Val × Val := (.reg F.freshReg, .reg (F.freshReg + 1))

/-- `Call1` and `Call2`. -/
def readCalls (M : IrModule) (F : Function) : List Instr :=
  [.call (M.find readCallerAddrName) [] (some F.freshReg),
    .call (M.find readCallerSizeName) [] (some (F.freshReg + 1))]

/-- One turn of the loop over the blocks. -/
def connectBlock (M : IrModule) (stale : Stale) (F : Function) (b : Block) : Block :=
  let args := if F.IsFront b then callerVals F else stale F.name b.label
  { b with insts :=
      (if F.IsFront b then readCalls M F else []) ++ b.insts ++
        if F.IsBack b then [mpuCall (M.find mpuConfigName) args.1 args.2 (.const 2)] else [] }

/-- What the pass makes of a function. -/
def connectFunction (M : IrModule) (stale : Stale) (F : Function) : Function :=
  if F.name ∈ connectSkips then F else F.mapBlocks (connectBlock M stale F)

/-- `Connect_Function::runOnModule`. -/
def connectModule (stale : Stale) (M : IrModule) : IrModule := M.map (connectFunction M stale)

theorem keepsShape_connectBlock (M : IrModule) (stale : Stale) (F : Function) :
    KeepsShape (connectBlock M stale F) := fun _ => ⟨rfl, rfl⟩

/-! ## The call that restores the caller -/

/-- `MPU_Config(caller_addr, caller_size, 2)`. -/
def restoreCall (F : Function) : Instr :=
  mpuCall (some mpuConfigName) (callerVals F).1 (callerVals F).2 (.const 2)

/-- On every path to a return of the changed function the caller's region is read first and enabled
directly before the return, exactly once. -/
def RestoresIn (F F' : Function) : Prop :=
  ∀ bs, F'.Path bs → ∀ b, bs.getLast? = some b → b.term.IsRet → ∃ mid,
    bs.flatMap Block.trace =
      .inst (.call (some readCallerAddrName) [] (some F.freshReg)) ::
      .inst (.call (some readCallerSizeName) [] (some (F.freshReg + 1))) ::
        (mid ++ [.inst (restoreCall F), .term b.term]) ∧
    Event.inst (restoreCall F) ∉ mid

/-- The pass makes every return restore the caller, whatever a variable without a value holds. -/
def RestoresCaller (M : IrModule) (F : Function) : Prop :=
  ∀ stale : Stale, RestoresIn F (connectFunction M stale F)

/-- Two constants, which are the results of no calls. -/
def constVals : Stale := fun _ _ => (.const 0, .const 0)

theorem constVals_ne_callerVals (F G : Function) (label : ℕ) :
    constVals F.name label ≠ callerVals G := by
  simp [constVals, callerVals]

section Restore

variable {L : LinkedModule} {stale : Stale} {F : Function} {b : Block}

theorem readCalls_eq (L : LinkedModule) (F : Function) : readCalls L.functions F =
    [.call (some readCallerAddrName) [] (some F.freshReg),
      .call (some readCallerSizeName) [] (some (F.freshReg + 1))] := by
  unfold readCalls
  rw [L.find_addr, L.find_size]

/-- No instruction of the source uses the values of the new calls. -/
theorem restoreCall_notMem_insts (hb : b ∈ F.blocks) : restoreCall F ∉ b.insts := by
  intro h
  have hlt := Function.lt_freshReg hb (Block.mem_regs_of_inst h (n := F.freshReg) (by
    simp [restoreCall, mpuCall, callerVals, Instr.regs, Val.regs]))
  exact lt_irrefl _ hlt

theorem restoreCall_notMem_readCalls (L : LinkedModule) (F : Function) :
    restoreCall F ∉ readCalls L.functions F := by
  rw [readCalls_eq]
  simp [restoreCall, mpuCall]

theorem restoreCall_notMem_front (hb : b ∈ F.blocks) :
    restoreCall F ∉ (if F.IsFront b then readCalls L.functions F else []) ++ b.insts := by
  rw [List.mem_append, not_or]
  refine ⟨?_, restoreCall_notMem_insts hb⟩
  split_ifs
  · exact restoreCall_notMem_readCalls L F
  · exact List.not_mem_nil

/-- The restoring call is in a changed block exactly if it is the last one and the variables hold
the results. -/
theorem restoreCall_mem_connectBlock_iff (hb : b ∈ F.blocks) :
    restoreCall F ∈ (connectBlock L.functions stale F b).insts ↔
      F.IsBack b ∧ (F.IsFront b ∨ stale F.name b.label = callerVals F) := by
  unfold connectBlock
  simp only
  rw [List.mem_append, L.find_config]
  have hfront := restoreCall_notMem_front (L := L) hb
  constructor
  · rintro (h | h)
    · exact absurd h hfront
    · by_cases hback : F.IsBack b
      · refine ⟨hback, ?_⟩
        rw [if_pos hback, List.mem_singleton] at h
        by_cases hf : F.IsFront b
        · exact .inl hf
        · rw [if_neg hf] at h
          simp only [restoreCall, mpuCall, Instr.call.injEq, List.cons.injEq] at h
          exact .inr (Prod.ext h.2.1.1.symm h.2.1.2.1.symm)
      · rw [if_neg hback] at h
        cases h
  · rintro ⟨hback, hargs⟩
    right
    rw [if_pos hback, List.mem_singleton]
    rcases hargs with hf | hst
    · rw [if_pos hf]; rfl
    · rw [hst, ite_self]; rfl

theorem connectBlock_insts_of_restores (hback : F.IsBack b)
    (hargs : F.IsFront b ∨ stale F.name b.label = callerVals F) :
    (connectBlock L.functions stale F b).insts =
      (if F.IsFront b then readCalls L.functions F else []) ++ b.insts ++ [restoreCall F] := by
  unfold connectBlock
  simp only
  rw [if_pos hback, L.find_config]
  rcases hargs with hf | hst
  · rw [if_pos hf, if_pos hf]; rfl
  · rw [hst, ite_self]; rfl

variable (L stale) in
/-- The entry of a path is the first block, and its trace begins with the two reading calls. -/
theorem exists_trace_eq {bs : List Block} {b : Block} (hbs : F.Path (bs ++ [b])) : ∃ mid,
    (bs.map (connectBlock L.functions stale F)).flatMap Block.trace ++
        ((if F.IsFront b then readCalls L.functions F else []) ++ b.insts).map .inst =
      (readCalls L.functions F).map .inst ++ mid := by
  have hentry := hbs.entry
  cases bs with
  | nil =>
    have hfront : F.IsFront b := Function.isFront_of_head? hentry.symm
    rw [if_pos hfront, List.map_append]
    exact ⟨_, rfl⟩
  | cons c bs =>
    have hfront : F.IsFront c := Function.isFront_of_head? hentry.symm
    rw [List.map_cons, List.flatMap_cons]
    unfold Block.trace connectBlock
    simp only [if_pos hfront, List.map_append, List.append_assoc]
    exact ⟨_, rfl⟩

variable (L stale) in
/-- Before its last block a path does not restore the caller. -/
theorem restoreCall_notMem_trace (hv : F.Verified) {bs : List Block} {b : Block}
    (hbs : F.Path (bs ++ [b])) (hret : b.term.IsRet) (hback : F.IsBack b) :
    .inst (restoreCall F) ∉ (bs.map (connectBlock L.functions stale F)).flatMap Block.trace := by
  intro h
  obtain ⟨c', hc', htrace⟩ := List.mem_flatMap.mp h
  obtain ⟨c, hc, rfl⟩ := List.mem_map.mp hc'
  have hmem := hbs.subset c (List.mem_append_left _ hc)
  have hcback := ((restoreCall_mem_connectBlock_iff hmem).mp (Block.inst_mem_trace.mp htrace)).1
  have heq := hv.isBack_unique hmem (hbs.subset b (by simp)) hcback hback
  -- the last block returns, so no path goes on from it
  refine Function.Path.not_isRet_of_mem_dropLast hbs.chain (b := c) ?_ (heq ▸ hret)
  rw [List.dropLast_concat]
  exact hc

/-- **When every return restores the caller.** Exactly when every block that returns and can be
reached is both the last one in the list and the first one. -/
theorem restoresCaller_iff (L : LinkedModule) {F : Function} (hF : F ∈ L.functions)
    (hskip : F.name ∉ connectSkips) : RestoresCaller L.functions F ↔
      ∀ b ∈ F.blocks, F.Reaches b → b.term.IsRet → F.IsBack b ∧ F.IsFront b := by
  have hv := L.verified F hF
  constructor
  · intro h b hb hreach hret
    have hg := keepsShape_connectBlock L.functions constVals F
    have h := h constVals
    unfold connectFunction at h
    rw [if_neg hskip] at h
    obtain ⟨bs, hbs, hlast⟩ := hreach
    obtain ⟨bs, rfl⟩ := List.getLast?_eq_some_iff.mp hlast
    obtain ⟨mid, htrace, -⟩ := h _ (Function.path_mapBlocks hg hbs)
      (connectBlock L.functions constVals F b) (by simp) hret
    -- the event before the return is in this block
    rw [List.map_append, List.map_singleton, ← List.cons_append, ← List.cons_append] at htrace
    obtain ⟨hback, hargs⟩ := (restoreCall_mem_connectBlock_iff (L := L) hb).mp
      (mem_insts_of_flatMap_trace_eq htrace)
    exact ⟨hback, hargs.resolve_right (constVals_ne_callerVals F F b.label)⟩
  · intro h stale bs' hbs' b' hlast' hret
    have hg := keepsShape_connectBlock L.functions stale F
    unfold connectFunction at hbs'
    rw [if_neg hskip] at hbs'
    obtain ⟨bs, hbs, rfl⟩ := Function.exists_path_of_mapBlocks hg hbs'
    rw [List.getLast?_map] at hlast'
    obtain ⟨b, hlast, rfl⟩ := Option.map_eq_some_iff.mp hlast'
    obtain ⟨bs, rfl⟩ := List.getLast?_eq_some_iff.mp hlast
    have hb := hbs.subset b (by simp)
    obtain ⟨hback, hfirst⟩ := h b hb ⟨_, hbs, hlast⟩ hret
    have hbefore := restoreCall_notMem_trace L stale hv hbs hret hback
    have hfront := restoreCall_notMem_front (L := L) hb
    obtain ⟨mid, hmid⟩ := exists_trace_eq L stale hbs
    refine ⟨mid, ?_, fun hin => ?_⟩
    · have htotal := congrArg (· ++ [Event.inst (restoreCall F), .term b.term]) hmid
      rw [List.map_append, List.flatMap_append, List.map_singleton, List.flatMap_singleton,
        Block.trace, connectBlock_insts_of_restores hback (.inl hfirst), List.map_append]
      rw [readCalls_eq L] at htotal ⊢
      simp only [List.map_cons, List.map_nil, List.append_assoc, List.cons_append,
        List.nil_append] at htotal ⊢
      exact htotal
    · have hin' : Event.inst (restoreCall F) ∈ (readCalls L.functions F).map .inst ++ mid :=
        List.mem_append_right _ hin
      rw [← hmid, List.mem_append, List.mem_map] at hin'
      rcases hin' with hin' | ⟨i, hi, heq⟩
      · exact hbefore hin'
      · cases heq
        exact hfront hi

end Restore

/-- A function that returns from two blocks. -/
def earlyReturn : Function where
  name := "Sum".toList
  blocks := [
    { label := 0, insts := [], term := .branch [.reg 0] [1, 2] },
    { label := 1, insts := [], term := .ret [] },
    { label := 2, insts := [], term := .ret [] }]

def earlyReturnModule : LinkedModule where
  functions := mainFunction :: earlyReturn :: mpuSources

/-- Its first return does not restore the caller, even if the variables hold the results. -/
theorem not_restoresCaller_earlyReturn : earlyReturn ∈ earlyReturnModule.functions ∧
    earlyReturn.name ∉ connectSkips ∧
    ¬ RestoresIn earlyReturn
      (connectFunction earlyReturnModule.functions (fun _ _ => callerVals earlyReturn) earlyReturn) ∧
    ¬ RestoresCaller earlyReturnModule.functions earlyReturn := by
  have hfirst : ¬ RestoresIn earlyReturn
      (connectFunction earlyReturnModule.functions (fun _ _ => callerVals earlyReturn) earlyReturn) := by
    intro h
    have hpath : earlyReturn.Path [⟨0, [], [], .branch [.reg 0] [1, 2]⟩, ⟨1, [], [], .ret []⟩] :=
      ⟨rfl, .cons_cons ⟨by decide, by decide⟩ (.singleton _)⟩
    obtain ⟨mid, htrace, -⟩ := h _ (Function.path_mapBlocks (keepsShape_connectBlock _ _ _) hpath) _
      rfl trivial
    have hevent := congrArg (fun l => l.reverse[1]?) htrace
    simp only [List.reverse_cons, List.reverse_append, List.reverse_nil, List.nil_append,
      List.cons_append, List.getElem?_cons_succ, List.getElem?_cons_zero] at hevent
    revert hevent; decide
  exact ⟨by decide, by decide, hfirst, fun h => hfirst (h _)⟩

/-- A function of one block. -/
theorem restoresCaller_leaf : RestoresCaller leafModule.functions leafFunction :=
  (restoresCaller_iff leafModule (by decide) (by decide)).mpr fun b hb _ _ =>
    (by decide : ∀ b ∈ leafFunction.blocks, leafFunction.IsBack b ∧ leafFunction.IsFront b) b hb

/-! ## The variables of one iteration -/

/-- One iteration of the loop over the blocks: the variables it declares, whether one of them was
read without a value, and the block. -/
structure Iteration where
  addr : Option Val := none
  size : Option Val := none
  unsetRead : Bool := false
  block : Block
  deriving DecidableEq, Repr

/-- `if(tmp_BB == &(F->front()))`. -/
def Iteration.firstBB (M : IrModule) (F : Function) (it : Iteration) : Iteration :=
  if F.IsFront it.block then
    { it with
      addr := some (.reg F.freshReg)
      size := some (.reg (F.freshReg + 1))
      block := { it.block with insts := readCalls M F ++ it.block.insts } }
  else it

/-- `if( tmp_BB == &(F->back()) )`. -/
def Iteration.lastBB (M : IrModule) (stale : Stale) (F : Function) (it : Iteration) : Iteration :=
  if F.IsBack it.block then
    let startAddr := it.addr.getD (stale F.name it.block.label).1
    let regionSize := it.size.getD (stale F.name it.block.label).2
    { it with
      unsetRead := it.addr.isNone || it.size.isNone
      block := { it.block with
        insts := it.block.insts ++
          [mpuCall (M.find mpuConfigName) startAddr regionSize (.const 2)] } }
  else it

def connectIteration (M : IrModule) (stale : Stale) (F : Function) (b : Block) : Iteration :=
  (Iteration.firstBB M F { block := b }).lastBB M stale F

/-- What an iteration makes of its block is what `connectBlock` says. -/
theorem connectIteration_block (M : IrModule) (stale : Stale) (F : Function) (b : Block) :
    (connectIteration M stale F b).block = connectBlock M stale F b := by
  unfold connectIteration connectBlock Iteration.firstBB
  by_cases hfront : F.IsFront b <;> by_cases hback : F.IsBack b
  all_goals
    unfold Iteration.lastBB
    unfold Function.IsBack at hback ⊢
    simp [hfront, hback, callerVals]

theorem connectIteration_unsetRead (M : IrModule) (stale : Stale) (F : Function) (b : Block) :
    (connectIteration M stale F b).unsetRead = true ↔ F.IsBack b ∧ ¬ F.IsFront b := by
  unfold connectIteration Iteration.firstBB
  by_cases hfront : F.IsFront b <;> by_cases hback : F.IsBack b
  all_goals
    unfold Iteration.lastBB
    unfold Function.IsBack at hback ⊢
    simp [hfront, hback]

/-- The first two arguments of the call in the last block are the results of the calls in the first
one, whatever a variable without a value holds; and no iteration reads one without a value. -/
structure ConnectsCaller (M : IrModule) (F : Function) : Prop where
  operands : ∀ stale : Stale, ∃ callAddr callSize : ℕ,
    (∀ b ∈ (connectFunction M stale F).blocks.head?, ∃ rest, b.insts =
      .call (M.find readCallerAddrName) [] (some callAddr) ::
      .call (M.find readCallerSizeName) [] (some callSize) :: rest) ∧
    ∀ b ∈ (connectFunction M stale F).blocks.getLast?, ∃ before, b.insts =
      before ++ [mpuCall (M.find mpuConfigName) (.reg callAddr) (.reg callSize) (.const 2)]
  assigned : ∀ stale : Stale, ∀ b ∈ F.blocks, (connectIteration M stale F b).unsetRead = false

theorem Function.isFront_of_length_le_one {F : Function} (h : F.blocks.length ≤ 1) {b : Block}
    (hb : b ∈ F.blocks) : F.IsFront b := by
  obtain ⟨c, hc⟩ := List.length_eq_one_iff.mp (le_antisymm h (List.length_pos_of_mem hb))
  rw [hc] at hb
  obtain rfl := List.mem_singleton.mp hb
  apply Function.isFront_of_head?
  rw [hc]
  rfl

/-- With more than one block the last block is not the first one. -/
theorem Function.Verified.exists_back_not_front {F : Function} (hv : F.Verified)
    (h : 1 < F.blocks.length) : ∃ b ∈ F.blocks, F.IsBack b ∧ ¬ F.IsFront b := by
  obtain ⟨a, rest, hblocks⟩ :=
    List.exists_cons_of_ne_nil (List.ne_nil_of_length_pos (Nat.zero_lt_of_lt h))
  have hrest : rest ≠ [] := by
    rintro rfl
    rw [hblocks] at h
    exact lt_irrefl _ h
  obtain ⟨init, b, rfl⟩ := List.eq_nil_or_concat rest |>.resolve_left hrest
  have hlast : F.blocks.getLast? = some b := by
    rw [hblocks, List.concat_eq_append, ← List.cons_append, List.getLast?_concat]
  refine ⟨b, List.mem_of_getLast? hlast, ?_, fun hfront => ?_⟩
  · unfold Function.IsBack
    rw [hlast]
    rfl
  · unfold Function.IsFront at hfront
    have hnodup := hv.labels_nodup
    rw [hblocks] at hfront hnodup
    rw [List.map_cons, List.nodup_cons] at hnodup
    apply hnodup.1
    rw [Option.some.inj hfront]
    exact List.mem_map_of_mem (by simp)

/-- **When the variables hold the results.** Exactly in the functions of at most one block. -/
theorem connectsCaller_iff (L : LinkedModule) {F : Function} (hF : F ∈ L.functions)
    (hskip : F.name ∉ connectSkips) : ConnectsCaller L.functions F ↔ F.blocks.length ≤ 1 := by
  constructor
  · intro h
    by_contra hlen
    obtain ⟨b, hb, hback, hfront⟩ := (L.verified F hF).exists_back_not_front (not_le.mp hlen)
    have hunset := (connectIteration_unsetRead L.functions (fun _ _ => callerVals F) F b).mpr
      ⟨hback, hfront⟩
    rw [h.assigned _ b hb] at hunset
    cases hunset
  · intro hlen
    constructor
    · intro stale
      refine ⟨F.freshReg, F.freshReg + 1, ?_, ?_⟩
      · intro b' hb'
        unfold connectFunction at hb'
        rw [if_neg hskip, Function.head?_mapBlocks] at hb'
        obtain ⟨b, hb, rfl⟩ := Option.map_eq_some_iff.mp hb'
        unfold connectBlock readCalls
        simp only [if_pos (Function.isFront_of_head? hb), List.append_assoc]
        exact ⟨_, rfl⟩
      · intro b' hb'
        unfold connectFunction Function.mapBlocks at hb'
        rw [if_neg hskip, List.getLast?_map] at hb'
        obtain ⟨b, hb, rfl⟩ := Option.map_eq_some_iff.mp hb'
        have hfront := Function.isFront_of_length_le_one hlen (List.mem_of_getLast? hb)
        have hback : F.IsBack b := by
          unfold Function.IsBack
          rw [hb]
          rfl
        unfold connectBlock
        simp only [if_pos hfront, if_pos hback]
        exact ⟨_, rfl⟩
    · intro stale b hb
      rw [← Bool.not_eq_true, connectIteration_unsetRead]
      exact fun h => h.2 (Function.isFront_of_length_le_one hlen hb)

/-- In a function of two blocks the iteration of the second one reads variables without a value. -/
theorem not_connectsCaller_sum : sumFunction ∈ benchmarkModule.functions ∧
    sumFunction.name ∉ connectSkips ∧ ¬ ConnectsCaller benchmarkModule.functions sumFunction := by
  refine ⟨by decide, by decide, fun h => ?_⟩
  have hunset := h.assigned constVals ⟨1, [], [], .ret [.reg 1]⟩ (by decide)
  revert hunset
  decide

theorem connectsCaller_leaf : ConnectsCaller leafModule.functions leafFunction :=
  (connectsCaller_iff leafModule (by decide) (by decide)).mpr le_rfl

end MpuPasses
