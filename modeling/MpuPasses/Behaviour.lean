import MpuPasses.Erasure
import MpuPasses.Lib.Observe
import MpuPasses.RegionRuns

/-!
# The instrumented program does what the source does

What is seen of a program is every instruction and terminator it comes to, with the values of the
operands; the calls of the functions of `mpu_configure.c` are not seen. A state of the source and one
of the instrumented program are the same if their stacks are, up to the added calls and the values
these set (`Same`). The programs make their steps together, up to the added calls (`Same.stutters`), so
both show the same.
-/

namespace MpuPasses

open Chars

/-! ## What is seen -/

def Instr.operands : Instr → List Val
  | call _ args _ => args
  | other _ operands _ => operands

def Term.operands : Term → List Val
  | ret operands => operands
  | branch operands _ => operands

theorem Instr.mem_regs_of_operand {i : Instr} {v : Val} (hv : v ∈ i.operands) {n : ℕ}
    (hn : n ∈ v.regs) : n ∈ i.regs := by
  cases i with
  | call callee args res => exact List.mem_append_left _ (List.mem_flatMap.mpr ⟨v, hv, hn⟩)
  | other opcode operands res => exact List.mem_append_left _ (List.mem_flatMap.mpr ⟨v, hv, hn⟩)

theorem Term.mem_regs_of_operand {t : Term} {v : Val} (hv : v ∈ t.operands) {n : ℕ}
    (hn : n ∈ v.regs) : n ∈ t.regs := by
  cases t with
  | ret operands => exact List.mem_flatMap.mpr ⟨v, hv, hn⟩
  | branch operands succs => exact List.mem_flatMap.mpr ⟨v, hv, hn⟩

/-- What a call comes to in a block of a function, and the values of the operands. -/
inductive Sight
  | inst (func : Str) (block : ℕ) (i : Instr) (values : List (BitVec 32))
  | term (func : Str) (block : ℕ) (t : Term) (values : List (BitVec 32))
  deriving DecidableEq

/-- What the innermost call comes to. Calls of functions of `mpu_configure.c` are not seen. -/
def State.sight (s : State) : Option Sight :=
  match s.frames with
  | [] => none
  | f :: _ =>
    match f.rest with
    | [] => some (.term f.func.name f.block.label f.block.term (f.block.term.operands.map f.value))
    | i :: _ =>
      if i.Registers then none
      else some (.inst f.func.name f.block.label i (i.operands.map f.value))

/-- How many instructions are left of the block. -/
def State.left (s : State) : ℕ := (s.frames.head?.map fun f => f.rest.length).getD 0

section Sight

variable {f : Frame} {fs : List Frame} {d : Device} {conf : BitVec 8 → Bool}

theorem State.sight_of_nil (hrest : f.rest = []) : (⟨f :: fs, d, conf⟩ : State).sight =
    some (.term f.func.name f.block.label f.block.term (f.block.term.operands.map f.value)) := by
  unfold State.sight
  simp only [hrest]

theorem State.sight_of_cons {i : Instr} {rest : List Instr} (hrest : f.rest = i :: rest) :
    (⟨f :: fs, d, conf⟩ : State).sight = if i.Registers then none
      else some (.inst f.func.name f.block.label i (i.operands.map f.value)) := by
  unfold State.sight
  simp only [hrest]

/-- Nothing is seen just when a call of a function of `mpu_configure.c` is next. -/
theorem State.sight_eq_none_iff : (⟨f :: fs, d, conf⟩ : State).sight = none ↔
    ∃ i rest, f.rest = i :: rest ∧ i.Registers := by
  constructor
  · intro hsight
    cases hrest : f.rest with
    | nil =>
      rw [State.sight_of_nil hrest] at hsight
      cases hsight
    | cons i rest =>
      rw [State.sight_of_cons hrest] at hsight
      split_ifs at hsight with hi
      exact ⟨i, rest, rfl, hi⟩
  · rintro ⟨i, rest, hrest, hi⟩
    rw [State.sight_of_cons hrest, if_pos hi]

theorem State.not_registers_of_seen (hseen : (⟨f :: fs, d, conf⟩ : State).sight ≠ none) {i : Instr}
    {rest : List Instr} (hrest : f.rest = i :: rest) : ¬ i.Registers :=
  fun hi => hseen (State.sight_eq_none_iff.mpr ⟨i, rest, hrest, hi⟩)

end Sight

/-- A hidden step is behind a call of a function of `mpu_configure.c`. -/
theorem Step.left_lt_of_hidden {M : IrModule} {s s' : State}
    (h : Machine.Hidden (Step M) State.sight s' s) : s'.left < s.left := by
  obtain ⟨⟨l, hstep⟩, hsight⟩ := h
  cases hstep with
  | @register f fs d d' conf callee args res rest v hrest hcall =>
    show rest.length < f.rest.length
    rw [hrest]
    exact Nat.lt_succ_self _
  | other hrest =>
    rw [State.sight_of_cons hrest, if_neg (Instr.not_registers_other _ _ _)] at hsight
    cases hsight
  | call hrest hcallee =>
    rw [State.sight_of_cons hrest, if_neg (mt Instr.registers_call.mp hcallee)] at hsight
    cases hsight
  | branch hrest =>
    rw [State.sight_of_nil hrest] at hsight
    cases hsight
  | ret hrest =>
    rw [State.sight_of_nil hrest] at hsight
    cases hsight

/-! ## States that are the same -/

/-- A change of the blocks of a module that only adds calls; `fresh` are the first new values. -/
structure AddsCalls (M : IrModule) (change : Function → Block → Block) (fresh : Function → ℕ) :
    Prop where
  shape : ∀ F, KeepsShape (change F)
  phis : ∀ F b, (change F b).phis = b.phis
  source : ∀ F ∈ M, ∀ b ∈ F.blocks, sourceInsts (change F b).insts = b.insts
  added : ∀ F ∈ M, ∀ b ∈ F.blocks, ∀ i ∈ (change F b).insts, i.Registers → Added (fresh F) i
  lt_fresh : ∀ F ∈ M, ∀ b ∈ F.blocks, ∀ n ∈ b.regs, n < fresh F

section Same

variable (M : IrModule) (change : Function → Block → Block) (fresh : Function → ℕ)

/-- The changed module. -/
def changed : IrModule := M.map fun F => F.mapBlocks (change F)

/-- Two calls of one function at the same place, with the same values. -/
structure SameFrame (f₀ f : Frame) : Prop where
  mem : f₀.func ∈ M
  block_mem : f₀.block ∈ f₀.func.blocks
  func : f.func = f₀.func.mapBlocks (change f₀.func)
  block : f.block = change f₀.func f₀.block
  rest : f₀.rest = sourceInsts f.rest
  subset : f.rest ⊆ f.block.insts
  regs : ∀ n < fresh f₀.func, f.regs n = f₀.regs n

/-- Both wait behind the same call. -/
structure SameWaiting (f₀ f : Frame) : Prop extends SameFrame M change fresh f₀ f where
  last : f₀.done.getLast? = f.done.getLast?

/-- A state of the source and one of the changed program. -/
inductive Same : State → State → Prop
  | mk {f₀ f : Frame} {fs₀ fs : List Frame} (top : SameFrame M change fresh f₀ f)
      (below : List.Forall₂ (SameWaiting M change fresh) fs₀ fs) {d₀ d : Device}
      {conf₀ conf : BitVec 8 → Bool} : Same ⟨f₀ :: fs₀, d₀, conf₀⟩ ⟨f :: fs, d, conf⟩

end Same

/-- A result goes into both. -/
theorem setResult_agree {k : ℕ} {regs₀ regs : ℕ → BitVec 32} (h : ∀ n < k, regs n = regs₀ n)
    (res : Option ℕ) (v : Option (BitVec 32)) :
    ∀ n < k, setResult res v regs n = setResult res v regs₀ n := by
  intro n hn
  unfold setResult
  split
  · next m v =>
    by_cases hnm : n = m
    · rw [hnm, Function.update_self, Function.update_self]
    · rw [Function.update_of_ne hnm, Function.update_of_ne hnm]
      exact h n hn
  · exact h n hn

section Steps

variable {M : IrModule} {change : Function → Block → Block} {fresh : Function → ℕ}
  {f₀ f : Frame} {fs₀ fs : List Frame} {s₀ s s' : State}

namespace SameFrame

variable (h : SameFrame M change fresh f₀ f)

include h

theorem func_name : f.func.name = f₀.func.name := by
  rw [h.func]
  rfl

theorem value_eq {v : Val} (hv : ∀ n ∈ v.regs, n < fresh f₀.func) : f.value v = f₀.value v := by
  cases v with
  | const c => rfl
  | reg n => exact h.regs n (hv n (List.mem_singleton_self n))

theorem values_eq {l : List Val} (hl : ∀ v ∈ l, ∀ n ∈ v.regs, n < fresh f₀.func) :
    l.map f.value = l.map f₀.value := List.map_congr_left fun v hv => h.value_eq (hl v hv)

/-- What is left of the source is in its block. -/
theorem mem_insts (hc : AddsCalls M change fresh) {i : Instr} (hi : i ∈ f₀.rest) :
    i ∈ f₀.block.insts := by
  rw [h.rest] at hi
  obtain ⟨hmem, hn⟩ := mem_sourceInsts.mp hi
  rw [← hc.source _ h.mem _ h.block_mem, ← h.block]
  exact mem_sourceInsts.mpr ⟨h.subset hmem, hn⟩

theorem lt_fresh_of_inst (hc : AddsCalls M change fresh) {i : Instr} (hi : i ∈ f₀.rest) {n : ℕ}
    (hn : n ∈ i.regs) : n < fresh f₀.func :=
  hc.lt_fresh _ h.mem _ h.block_mem n (Block.mem_regs_of_inst (h.mem_insts hc hi) hn)

theorem source_rest {i : Instr} {rest : List Instr} (hrest : f.rest = i :: rest)
    (hi : ¬ i.Registers) : f₀.rest = i :: sourceInsts rest := by
  rw [h.rest, hrest, sourceInsts_cons_of_not hi]

/-- With no added call first, the source has nothing left just when the changed program has not. -/
theorem rest_eq_nil (hseen : ∀ i rest, f.rest = i :: rest → ¬ i.Registers) (hrest₀ : f₀.rest = []) :
    f.rest = [] := by
  cases hrest : f.rest with
  | nil => rfl
  | cons i rest =>
    rw [h.source_rest hrest (hseen i rest hrest)] at hrest₀
    cases hrest₀

/-- With no added call first, both have the same instruction next. -/
theorem exists_rest (hseen : ∀ i rest, f.rest = i :: rest → ¬ i.Registers) {i : Instr}
    {rest₀ : List Instr} (hrest₀ : f₀.rest = i :: rest₀) :
    ∃ rest, f.rest = i :: rest ∧ rest₀ = sourceInsts rest := by
  cases hrest : f.rest with
  | nil =>
    rw [h.rest, hrest] at hrest₀
    cases hrest₀
  | cons j rest =>
    rw [h.source_rest hrest (hseen j rest hrest)] at hrest₀
    cases hrest₀
    exact ⟨rest, rfl, rfl⟩

/-- Behind an instruction of both. -/
theorem past {i : Instr} {rest : List Instr} (hrest : f.rest = i :: rest)
    {regs₀ regs : ℕ → BitVec 32} (hregs : ∀ n < fresh f₀.func, regs n = regs₀ n) :
    SameFrame M change fresh (f₀.past i (sourceInsts rest) regs₀) (f.past i rest regs) :=
  ⟨h.mem, h.block_mem, h.func, h.block, rfl,
    fun _ hj => h.subset (hrest ▸ List.mem_cons_of_mem i hj), hregs⟩

/-- A call of a function of `mpu_configure.c` is an added one. -/
theorem added (hc : AddsCalls M change fresh) {i : Instr} {rest : List Instr}
    (hrest : f.rest = i :: rest) (hi : i.Registers) : Added (fresh f₀.func) i := by
  have hmem : i ∈ f.block.insts := h.subset (hrest ▸ List.mem_cons_self)
  rw [h.block] at hmem
  exact hc.added _ h.mem _ h.block_mem i hmem hi

/-- Behind an added call. -/
theorem past_added {i : Instr} {rest : List Instr} (hrest : f.rest = i :: rest) (hi : i.Registers)
    {regs : ℕ → BitVec 32} (hregs : ∀ n < fresh f₀.func, regs n = f.regs n) :
    SameFrame M change fresh f₀ (f.past i rest regs) := by
  refine ⟨h.mem, h.block_mem, h.func, h.block, ?_, ?_, ?_⟩
  · rw [h.rest, hrest, sourceInsts_cons_of_registers hi]
    rfl
  · exact fun _ hj => h.subset (hrest ▸ List.mem_cons_of_mem i hj)
  · exact fun n hn => (hregs n hn).trans (h.regs n hn)

/-- After a call both have its result. -/
theorem withResult (res : Option ℕ) (v : Option (BitVec 32)) :
    SameFrame M change fresh { f₀ with regs := setResult res v f₀.regs }
      { f with regs := setResult res v f.regs } :=
  ⟨h.mem, h.block_mem, h.func, h.block, h.rest, h.subset, setResult_agree h.regs res v⟩

end SameFrame

/-- Both at the start of a block. -/
theorem sameFrame_enter {F : Function} {b : Block} (hc : AddsCalls M change fresh) (hF : F ∈ M)
    (hb : b ∈ F.blocks) {regs₀ regs : ℕ → BitVec 32} (hregs : ∀ n < fresh F, regs n = regs₀ n) :
    SameFrame M change fresh (Frame.enter F b regs₀)
      (Frame.enter (F.mapBlocks (change F)) (change F b) regs) :=
  ⟨hF, hb, rfl, rfl, (hc.source F hF b hb).symm, List.Subset.refl _, hregs⟩

/-- An added call is not of the source. -/
theorem Same.sight_eq (hc : AddsCalls M change fresh) (h : Same M change fresh s₀ s)
    (hseen : s.sight ≠ none) : s₀.sight = s.sight := by
  cases h with
  | @mk f₀ f fs₀ fs top below d₀ d conf₀ conf =>
    have hlabel : f.block.label = f₀.block.label := by rw [top.block, (hc.shape _ _).1]
    have hterm : f.block.term = f₀.block.term := by rw [top.block, (hc.shape _ _).2]
    cases hrest : f.rest with
    | nil =>
      have hrest₀ : f₀.rest = [] := by
        rw [top.rest, hrest]
        rfl
      rw [State.sight_of_nil hrest, State.sight_of_nil hrest₀, hlabel, hterm, top.func_name,
        top.values_eq fun v hv n hn => ?_]
      apply hc.lt_fresh _ top.mem _ top.block_mem
      exact List.mem_append_right _ (Term.mem_regs_of_operand hv hn)
    | cons i rest =>
      have hi := State.not_registers_of_seen hseen hrest
      have hrest₀ := top.source_rest hrest hi
      rw [State.sight_of_cons hrest, State.sight_of_cons hrest₀, if_neg hi, if_neg hi, hlabel,
        top.func_name, top.values_eq fun v hv n hn => ?_]
      apply top.lt_fresh_of_inst hc (hrest₀ ▸ List.mem_cons_self)
      exact Instr.mem_regs_of_operand hv hn

/-- A seen step of the changed program is one of the source. -/
theorem Same.follow (hc : AddsCalls M change fresh) (h : Same M change fresh s₀ s) {l : Label}
    (hstep : Step (changed M change) s l s') (hseen : s.sight ≠ none) :
    ∃ s₀', Step M s₀ l s₀' ∧ Same M change fresh s₀' s' := by
  cases h with
  | @mk f₀ f fs₀ fs top below d₀ d conf₀ conf =>
    cases hstep with
    | @register _ _ _ d' _ callee args res rest v hrest hcall =>
      -- such a call is not seen
      have hmem : callee ∈ registerNames := by
        by_contra hn
        rw [registerCall_eq_none hn] at hcall
        cases hcall
      exact absurd (Instr.registers_call.mpr hmem) (State.not_registers_of_seen hseen hrest)
    | @other _ _ _ _ opcode operands res rest hrest v =>
      have hi := Instr.not_registers_other opcode operands res
      exact ⟨_, .other (top.source_rest hrest hi) v,
        .mk (top.past hrest (setResult_agree top.regs res (some v))) below⟩
    | @call _ _ _ _ callee args res rest H' b' hrest hcallee hH' hname hb' regs =>
      have hi : ¬ (Instr.call (some callee) args res).Registers :=
        mt Instr.registers_call.mp hcallee
      obtain ⟨H, hH, rfl⟩ := List.mem_map.mp hH'
      rw [Function.head?_mapBlocks] at hb'
      obtain ⟨b, hb, rfl⟩ := Option.map_eq_some_iff.mp hb'
      refine ⟨_, .call (top.source_rest hrest hi) hcallee hH hname hb regs,
        .mk (sameFrame_enter hc hH (List.mem_of_mem_head? hb) fun _ _ => rfl) ?_⟩
      refine .cons ⟨top.past hrest top.regs, ?_⟩ below
      exact List.getLast?_concat.trans List.getLast?_concat.symm
    | @branch _ _ _ _ c' regs hrest hedge hregs =>
      rw [top.func, top.block] at hedge
      obtain ⟨c, hedge₀, rfl⟩ := Function.edge_of_mapBlocks (hc.shape _) hedge
      rw [hc.phis] at hregs
      have hrest₀ : f₀.rest = [] := by rw [top.rest, hrest]; rfl
      let regs₀ : ℕ → BitVec 32 := fun n => if n < fresh f₀.func then regs n else f₀.regs n
      refine ⟨⟨Frame.enter f₀.func c regs₀ :: fs₀, d₀, conf₀⟩, .branch hrest₀ hedge₀ ?_, ?_⟩
      · intro n hn
        show (if n < fresh f₀.func then regs n else f₀.regs n) = f₀.regs n
        split_ifs with hlt
        · rw [hregs n hn, top.regs n hlt]
        · rfl
      · rw [top.func]
        exact .mk (sameFrame_enter hc top.mem hedge₀.1 fun n hn => (if_pos hn).symm) below
    | @ret _ g fs' _ _ callee args res hrest hret hdone v =>
      have hrest₀ : f₀.rest = [] := by rw [top.rest, hrest]; rfl
      rw [top.block, (hc.shape _ _).2] at hret
      cases below with
      | cons hg below =>
        rw [top.func_name]
        exact ⟨_, .ret hrest₀ hret (hg.last.trans hdone) v, .mk (hg.withResult res v) below⟩

/-- A step of the source is one of the changed program, unless an added call is first. -/
theorem Same.lead (hc : AddsCalls M change fresh) (h : Same M change fresh s₀ s) {l : Label}
    {s₀' : State} (hstep : Step M s₀ l s₀') (hseen : s.sight ≠ none) :
    ∃ s', Step (changed M change) s l s' ∧ Same M change fresh s₀' s' := by
  cases h with
  | @mk f₀ f fs₀ fs top below d₀ d conf₀ conf =>
    have hfirst : ∀ i rest, f.rest = i :: rest → ¬ i.Registers := fun _ _ hrest =>
      State.not_registers_of_seen hseen hrest
    cases hstep with
    | @register _ _ _ d' _ callee args res rest₀ v hrest₀ hcall =>
      -- the source makes no such call
      have hi : Instr.call (some callee) args res ∈ f₀.rest := hrest₀ ▸ List.mem_cons_self
      rw [top.rest] at hi
      rw [registerCall_eq_none (mt Instr.registers_call.mpr (mem_sourceInsts.mp hi).2)] at hcall
      cases hcall
    | @other _ _ _ _ opcode operands res rest₀ hrest₀ v =>
      obtain ⟨rest, hrest, rfl⟩ := top.exists_rest hfirst hrest₀
      exact ⟨_, .other hrest v,
        .mk (top.past hrest (setResult_agree top.regs res (some v))) below⟩
    | @call _ _ _ _ callee args res rest₀ H b hrest₀ hcallee hH hname hb regs =>
      obtain ⟨rest, hrest, rfl⟩ := top.exists_rest hfirst hrest₀
      have hhead : (H.mapBlocks (change H)).blocks.head? = some (change H b) := by
        rw [Function.head?_mapBlocks, hb]
        rfl
      refine ⟨_, .call hrest hcallee (List.mem_map_of_mem hH) hname hhead regs,
        .mk (sameFrame_enter hc hH (List.mem_of_mem_head? hb) fun _ _ => rfl) ?_⟩
      refine .cons ⟨top.past hrest top.regs, ?_⟩ below
      exact List.getLast?_concat.trans List.getLast?_concat.symm
    | @branch _ _ _ _ c regs₀ hrest₀ hedge hregs =>
      have hedge' : f.func.Edge f.block (change f₀.func c) := by
        rw [top.func, top.block]
        exact Function.edge_mapBlocks (hc.shape _) hedge
      let regs : ℕ → BitVec 32 := fun n => if n < fresh f₀.func then regs₀ n else f.regs n
      refine ⟨⟨Frame.enter f.func (change f₀.func c) regs :: fs, d, conf⟩,
        .branch (top.rest_eq_nil hfirst hrest₀) hedge' ?_, ?_⟩
      · rw [hc.phis]
        intro n hn
        show (if n < fresh f₀.func then regs₀ n else f.regs n) = f.regs n
        split_ifs with hlt
        · rw [hregs n hn, top.regs n hlt]
        · rfl
      · rw [top.func]
        exact .mk (sameFrame_enter hc top.mem hedge.1 fun n hn => if_pos hn) below
    | @ret _ g fs' _ _ callee args res hrest₀ hret hdone v =>
      have hret' : f.block.term.IsRet := by
        rw [top.block, (hc.shape _ _).2]
        exact hret
      cases below with
      | cons hg below =>
        rw [← top.func_name]
        exact ⟨_, .ret (top.rest_eq_nil hfirst hrest₀) hret' (hg.last.symm.trans hdone) v,
          .mk (hg.withResult res v) below⟩

/-- An added call changes nothing that counts. -/
theorem Same.hidden (hc : AddsCalls M change fresh) (h : Same M change fresh s₀ s) {l : Label}
    (hstep : Step (changed M change) s l s') (hseen : s.sight = none) :
    Same M change fresh s₀ s' := by
  cases h with
  | @mk f₀ f fs₀ fs top below d₀ d conf₀ conf =>
    obtain ⟨i, rest, hrest, hi⟩ := State.sight_eq_none_iff.mp hseen
    have hadded := top.added hc hrest hi
    have hkeep : ∀ v, ∀ n < fresh f₀.func, setResult i.result v f.regs n = f.regs n := by
      intro v n hn
      apply setResult_of_notMem
      intro hres
      exact absurd (hadded.le_of_result hres) (by omega)
    obtain ⟨callee, hcallee, hname⟩ := hi
    cases i with
    | other opcode operands res => cases hname
    | call name args res =>
      cases hname
      rcases hstep.of_call hrest with ⟨d', v, -, -, rfl⟩ | ⟨_, _, _, hn, -⟩
      · exact .mk (top.past_added hrest hadded.registers (hkeep v)) below
      · exact absurd hcallee hn

/-- An added call can be made. -/
theorem Added.exists_step {k : ℕ} {i : Instr} (h : Added k i) {N : IrModule} {rest : List Instr}
    (hrest : f.rest = i :: rest) (d : Device) (conf : BitVec 8 → Bool) :
    ∃ l s', Step N ⟨f :: fs, d, conf⟩ l s' := by
  cases h with
  | config a z n => exact ⟨_, _, .register hrest (registerCall_mpuConfig _ _ _ _)⟩
  | readAddr => exact ⟨_, _, .register hrest (registerCall_readCallerAddr _)⟩
  | readSize => exact ⟨_, _, .register hrest (registerCall_readCallerSize _)⟩

/-- Both programs make their steps together, the changed one its added calls in between. -/
theorem Same.stutters (hc : AddsCalls M change fresh) : Machine.Stutters (Step M) State.sight
    (Step (changed M change)) State.sight (Same M change fresh) State.left := by
  refine ⟨fun {s₀ s l s'} h hstep => ?_, fun {s₀ s l s₀'} h hstep => ?_⟩
  · by_cases hseen : s.sight = none
    · exact .inr ⟨hseen, h.hidden hc hstep hseen, Step.left_lt_of_hidden ⟨⟨l, hstep⟩, hseen⟩⟩
    · obtain ⟨s₀', hstep₀, hsame⟩ := h.follow hc hstep hseen
      exact .inl ⟨l, s₀', hstep₀, h.sight_eq hc hseen, hsame⟩
  · by_cases hseen : s.sight = none
    · cases h with
      | @mk f₀ f fs₀ fs top below d₀ d conf₀ conf =>
        obtain ⟨i, rest, hrest, hi⟩ := State.sight_eq_none_iff.mp hseen
        obtain ⟨k, s', hk⟩ := (top.added hc hrest hi).exists_step (N := changed M change) hrest d conf
        exact .inr ⟨k, s', hk, hseen, (Same.mk top below).hidden hc hk hseen,
          Step.left_lt_of_hidden ⟨⟨k, hk⟩, hseen⟩⟩
    · obtain ⟨s', hstep', hsame⟩ := h.lead hc hstep hseen
      exact .inl ⟨l, s', hstep', h.sight_eq hc hseen, hsame⟩

end Steps

/-! ## The three passes -/

section Passes

variable {L : LinkedModule} {stale : Stale} {T : LinkTable} {M : IrModule}

theorem addsCalls_finalBlock (hd : L.functions.Direct) (hn : NoRegisters L.functions) :
    AddsCalls L.functions (fun F => finalBlock L stale T F)
      (fun F => (insertedFunction F).freshReg) where
  shape F := keepsShape_finalBlock
  phis F b := by
    show (instrumentedBlock L stale F b).phis = b.phis
    unfold instrumentedBlock
    split_ifs <;> rfl
  source F hF b hb := sourceInsts_finalBlock (hd F hF b hb) (hn F hF b hb)
  added F hF b hb i hi hr := added_of_mem_finalBlock (hd F hF b hb) (hn F hF b hb) hi hr
  lt_fresh F _ b hb n hr := lt_freshReg_insertedFunction hb hr

/-- What is seen of two programs that begin in `s₀` and `s` is the same: they show the same, wherever
one can get the other gets with the same values, the second stops only where the first does, and it
never goes on forever without showing anything. -/
structure SameBehaviour (M₀ M : IrModule) (R : State → State → Prop) (s₀ s : State) : Prop where
  behaviours : Machine.behaviours (Step M) State.sight s = Machine.behaviours (Step M₀) State.sight s₀
  reached : ∀ os s', Machine.Seen (Step M) State.sight s os s' →
    ∃ s₀', Machine.Seen (Step M₀) State.sight s₀ os s₀' ∧ R s₀' s' ∧
      ((∀ l t, ¬ Step M s' l t) → ∀ l t, ¬ Step M₀ s₀' l t)
  reaches : ∀ os s₀', Machine.Seen (Step M₀) State.sight s₀ os s₀' →
    ∃ s', Machine.Seen (Step M) State.sight s os s' ∧ R s₀' s'
  ends : WellFounded (Machine.Hidden (Step M) State.sight)

/-- Programs in states that are the same behave the same. -/
theorem Same.behaviour {change : Function → Block → Block} {fresh : Function → ℕ} {s₀ s : State}
    {M₀ : IrModule} (hc : AddsCalls M₀ change fresh) (h : Same M₀ change fresh s₀ s) :
    SameBehaviour M₀ (changed M₀ change) (Same M₀ change fresh) s₀ s := by
  have halike := (Same.stutters hc).alike h
  constructor
  · exact halike.behaviours
  · exact halike.reached
  · exact halike.reaches
  · exact Machine.wellFounded_hidden State.left fun _ _ => Step.left_lt_of_hidden

/-- The first block of a function and that of its instrumented version, called with the same values. -/
def SameEntry (L : LinkedModule) (M : IrModule) (s₀ s : State) : Prop :=
  ∃ F ∈ L.functions, ∃ F' ∈ M, F'.name = F.name ∧ ∃ b b' regs, F.blocks.head? = some b ∧
    F'.blocks.head? = some b' ∧ s₀.frames = [Frame.enter F b regs] ∧ s.frames = [Frame.enter F' b' regs]

theorem SameEntry.same (hM : M = changed L.functions fun F => finalBlock L stale T F)
    (hd : L.functions.Direct) (hn : NoRegisters L.functions) {s₀ s : State} (h : SameEntry L M s₀ s) :
    Same L.functions (fun F => finalBlock L stale T F) (fun F => (insertedFunction F).freshReg) s₀ s := by
  obtain ⟨F, hF, F', hF', hname, b, b', regs, hb, hb', hs₀, hs⟩ := h
  rw [hM] at hF'
  obtain ⟨G, hG, rfl⟩ := List.mem_map.mp hF'
  obtain rfl : G = F := List.inj_on_of_nodup_map L.names_nodup hG hF hname
  rw [Function.head?_mapBlocks, hb] at hb'
  obtain rfl := Option.some.inj hb'
  obtain ⟨frames₀, d₀, conf₀⟩ := s₀
  obtain ⟨frames, d, conf⟩ := s
  obtain rfl : frames₀ = _ := hs₀
  obtain rfl : frames = _ := hs
  exact .mk (sameFrame_enter (addsCalls_finalBlock hd hn) hF (List.mem_of_mem_head? hb) fun _ _ => rfl)
    .nil

/-- **Instrumentation keeps the behaviour.** If the source makes direct calls only and none to the
functions of `mpu_configure.c`, and the passes run through, every function behaves as in the source,
whatever the variables of `Connect_Function` hold and whatever is in the registers of the MPU. -/
theorem runPasses_sameBehaviour (hd : L.functions.Direct) (hn : NoRegisters L.functions)
    (hM : runPasses stale T.table L.functions = some M) {s₀ s : State} (hs : SameEntry L M s₀ s) :
    SameBehaviour L.functions M (Same L.functions (fun F => finalBlock L stale T F)
      fun F => (insertedFunction F).freshReg) s₀ s := by
  obtain ⟨hmap, -⟩ := runPasses_eq_some hd hM
  have hsame := hs.same hmap hd hn
  rw [hmap]
  exact hsame.behaviour (addsCalls_finalBlock hd hn)

/-- The benchmark from the first block of `main` on. -/
theorem runPasses_sameBehaviour_benchmark : ∃ s₀ s : State,
    SameBehaviour benchmarkModule.functions benchmarkFinal (Same benchmarkModule.functions
      (fun F => finalBlock benchmarkModule keptVals benchmarkTable F)
      fun F => (insertedFunction F).freshReg) s₀ s := by
  have hmain : mainFunction ∈ benchmarkModule.functions := List.mem_cons_self
  refine ⟨⟨[Frame.enter mainFunction _ fun _ => 0#32], resetDevice, fun _ => false⟩,
    ⟨[Frame.enter _ _ fun _ => 0#32], resetDevice, fun _ => false⟩,
    runPasses_sameBehaviour (by decide) (by decide) runPasses_benchmark
      ⟨mainFunction, hmain, _, List.mem_map_of_mem hmain, rfl, _, _, _, rfl, rfl, rfl, rfl⟩⟩

end Passes

end MpuPasses
