import MpuPasses.Behaviour
import MpuPasses.SplitBB

/-!
# The split program does what the source does

`Split_BB` gives the blocks new labels and adds branches from piece to piece, so of a program only that
is compared which has nothing to do with how its blocks are cut: the instructions, the returns and the
branches that have a choice, with the values of the operands. A call in the source and one in the split
program are at the same place if the second is in a piece of the first one's block with the rest of the
block in this piece and those behind it (`CutFrame`). The programs make their steps together, up to the
branches between pieces (`CutSame.stutters`), whoever calls whom.
-/

namespace MpuPasses

open Chars

/-! ## What is seen of the cut blocks -/

/-- An instruction, a return, or a branch that has a choice, of a function, with the values of the
operands. -/
inductive Act
  | inst (func : Str) (i : Instr) (values : List (BitVec 32))
  | ret (func : Str) (values : List (BitVec 32))
  | branch (func : Str) (values : List (BitVec 32))
  deriving DecidableEq

/-- Labels are not seen, and unconditional branches are not either. -/
def Sight.act : Sight → Option Act
  | .inst func _ i values => some (.inst func i values)
  | .term func _ (.ret _) values => some (.ret func values)
  | .term func _ (.branch operands succs) values =>
    if operands = [] ∧ succs.length = 1 then none else some (.branch func values)

def State.act (s : State) : Option Act := s.sight.bind Sight.act

theorem Sight.act_mapSuccs (ρ : ℕ → ℕ) (func : Str) (l l' : ℕ) (t : Term) (values : List (BitVec 32)) :
    (Sight.term func l (t.mapSuccs ρ) values).act = (Sight.term func l' t values).act := by
  cases t with
  | ret operands => rfl
  | branch operands succs =>
    show (if operands = [] ∧ (succs.map ρ).length = 1 then none else some (Act.branch func values)) =
      if operands = [] ∧ succs.length = 1 then none else some (Act.branch func values)
    rw [List.length_map]

theorem Term.isRet_mapSuccs (ρ : ℕ → ℕ) (t : Term) : (t.mapSuccs ρ).IsRet ↔ t.IsRet := by
  cases t <;> rfl

/-! ## Pieces of a cut function -/

/-- `p` is a piece of `b` in a function, and `back` are the pieces behind it. -/
structure InPiece (ρ : ℕ → ℕ) (F' : Function) (b p : Block) (back : List Block) : Prop where
  blocks : p :: back <:+: F'.blocks
  last : ∃ q ∈ (p :: back).getLast?, q.term = b.term.mapSuccs ρ
  chain : (p :: back).IsChain fun p q => p.term = .branch [] [q.label]
  phis : ∀ q ∈ back, q.phis = []

/-- The first piece of a block. -/
structure FirstPiece (ρ : ℕ → ℕ) (F' : Function) (b p : Block) (back : List Block) : Prop
    extends InPiece ρ F' b p back where
  label : p.label = ρ b.label
  phis_first : p.phis = b.phis
  insts : b.insts = p.insts ++ back.flatMap Block.insts

/-- The blocks of `F` cut into pieces. -/
structure CutInto (ρ : ℕ → ℕ) (F F' : Function) : Prop where
  name : F'.name = F.name
  verified : F.Verified
  verified' : F'.Verified
  pieces : ∃ pss, F'.blocks = pss.flatten ∧ List.Forall₂ (PiecesOf ρ) F.blocks pss

section Pieces

variable {ρ : ℕ → ℕ} {F F' : Function} {b p q : Block} {back : List Block}

theorem InPiece.mem (h : InPiece ρ F' b p back) : p ∈ F'.blocks := h.blocks.subset List.mem_cons_self

/-- The last piece has the terminator of the block. -/
theorem InPiece.term_last (h : InPiece ρ F' b p []) : p.term = b.term.mapSuccs ρ := by
  obtain ⟨q, hq, hterm⟩ := h.last
  obtain rfl := Option.some.inj hq
  exact hterm

/-- Every other piece leads to the next one. -/
theorem InPiece.term_of_cons (h : InPiece ρ F' b p (q :: back)) : p.term = .branch [] [q.label] :=
  (List.isChain_cons_cons.mp h.chain).1

theorem InPiece.next (h : InPiece ρ F' b p (q :: back)) : InPiece ρ F' b q back where
  blocks := (List.suffix_cons p (q :: back)).isInfix.trans h.blocks
  last := by
    have hlast := h.last
    rw [List.getLast?_cons_cons] at hlast
    exact hlast
  chain := (List.isChain_cons_cons.mp h.chain).2
  phis := (List.forall_mem_cons.mp h.phis).2

/-- An edge of the source leads to the first piece of its target. -/
theorem InPiece.edge (hp : InPiece ρ F' b p []) {c : Block} (hedge : F.Edge b c) {p' : Block}
    {back : List Block} (hp' : FirstPiece ρ F' c p' back) : F'.Edge p p' := by
  refine ⟨hp'.mem, ?_⟩
  rw [hp.term_last, Term.succs_mapSuccs, hp'.label]
  exact List.mem_map_of_mem hedge.2

theorem PiecesOf.exists_first {ps : List Block} (h : PiecesOf ρ b ps) (hps : ps <:+: F'.blocks) :
    ∃ p back, ps = p :: back ∧ FirstPiece ρ F' b p back := by
  cases ps with
  | nil => cases h.entry
  | cons p back =>
    have hphis := h.phis
    rw [List.map_cons, List.length_cons, Nat.add_sub_cancel] at hphis
    obtain ⟨hfirst, hrest⟩ := List.cons.inj hphis
    obtain ⟨q, hq, -, hterm⟩ := h.last
    refine ⟨p, back, rfl, ⟨hps, ⟨q, hq, hterm⟩, h.chain, ?_⟩, Option.some.inj h.entry, hfirst, ?_⟩
    · intro q hq
      exact List.eq_of_mem_replicate (hrest ▸ List.mem_map_of_mem hq)
    · rw [← h.insts, List.flatMap_cons]

namespace CutInto

variable (h : CutInto ρ F F')

include h

/-- Every block has its first piece. -/
theorem exists_first (hb : b ∈ F.blocks) : ∃ p back, FirstPiece ρ F' b p back := by
  obtain ⟨pss, hblocks, hpieces⟩ := h.pieces
  obtain ⟨i, hi, rfl⟩ := List.getElem_of_mem hb
  have hi' : i < pss.length := hpieces.length_eq ▸ hi
  have hinfix : pss.get ⟨i, hi'⟩ <:+: F'.blocks :=
    hblocks ▸ List.infix_of_mem_flatten (List.getElem_mem hi')
  obtain ⟨p, back, -, hfirst⟩ := ((List.forall₂_iff_get.mp hpieces).2 i hi hi').exists_first hinfix
  exact ⟨p, back, hfirst⟩

/-- Both functions begin with the first block, or are declarations. -/
theorem head_cases : F.blocks.head? = none ∧ F'.blocks.head? = none ∨
    ∃ b p back, F.blocks.head? = some b ∧ F'.blocks.head? = some p ∧ FirstPiece ρ F' b p back := by
  obtain ⟨pss, hblocks, hpieces⟩ := h.pieces
  cases hF : F.blocks with
  | nil =>
    rw [hF, List.forall₂_nil_left_iff] at hpieces
    rw [hblocks, hpieces]
    exact .inl ⟨rfl, rfl⟩
  | cons b bs =>
    rw [hF] at hpieces
    cases hpieces with
    | @cons _ ps _ pss hps _ =>
      have hinfix : ps <:+: F'.blocks := hblocks ▸ List.infix_of_mem_flatten List.mem_cons_self
      obtain ⟨p, back, rfl, hfirst⟩ := hps.exists_first hinfix
      refine .inr ⟨b, p, back, rfl, ?_, hfirst⟩
      rw [hblocks]
      rfl

/-- An edge of the last piece comes from one of the source. -/
theorem exists_edge (hb : b ∈ F.blocks) (hp : InPiece ρ F' b p []) {p' : Block}
    (hedge : F'.Edge p p') : ∃ c back, F.Edge b c ∧ FirstPiece ρ F' c p' back := by
  obtain ⟨hmem, hsucc⟩ := hedge
  rw [hp.term_last, Term.succs_mapSuccs] at hsucc
  obtain ⟨l, hl, hlabel⟩ := List.mem_map.mp hsucc
  obtain ⟨c, hc, rfl⟩ := List.mem_map.mp (h.verified.succs_mem b hb l hl)
  obtain ⟨p'', back, hfirst⟩ := h.exists_first hc
  obtain rfl := h.verified'.eq_of_label hfirst.mem hmem (hfirst.label.trans hlabel)
  exact ⟨c, back, ⟨hc, hl⟩, hfirst⟩

end CutInto

end Pieces

/-! ## States at the same place -/

/-- Two calls at the same place, one of them in a piece with `back` behind it. -/
structure CutFrame (ρ : ℕ → ℕ) (back : List Block) (f₀ f : Frame) : Prop where
  func : CutInto ρ f₀.func f.func
  mem : f₀.block ∈ f₀.func.blocks
  piece : InPiece ρ f.func f₀.block f.block back
  rest : f₀.rest = f.rest ++ back.flatMap Block.insts
  regs : f.regs = f₀.regs

/-- Both wait behind the same call. -/
def CutWaiting (f₀ f : Frame) : Prop :=
  ∃ ρ back, CutFrame ρ back f₀ f ∧ f₀.done.getLast? = f.done.getLast?

/-- A state of the source and one of the split program, with the same registers of the MPU. -/
inductive CutSame : State → State → Prop
  | mk {ρ : ℕ → ℕ} {back : List Block} {f₀ f : Frame} {fs₀ fs : List Frame}
      (top : CutFrame ρ back f₀ f) (below : List.Forall₂ CutWaiting fs₀ fs) {d : Device}
      {conf : BitVec 8 → Bool} : CutSame ⟨f₀ :: fs₀, d, conf⟩ ⟨f :: fs, d, conf⟩

/-- How many blocks the function has from the current one on. -/
def State.behind (s : State) : ℕ :=
  (s.frames.head?.map fun f =>
    (f.func.blocks.dropWhile fun b => decide (b.label ≠ f.block.label)).length).getD 0

section Frames

variable {ρ : ℕ → ℕ} {back : List Block} {f₀ f : Frame} {fs₀ fs : List Frame} {d : Device}
  {conf : BitVec 8 → Bool}

theorem dropWhile_label {F' : Function} (hv : F'.Verified) {p : Block}
    {pre post : List Block} (h : pre ++ p :: post = F'.blocks) :
    (F'.blocks.dropWhile fun b => decide (b.label ≠ p.label)) = p :: post := by
  have hnodup := hv.labels_nodup
  rw [← h, List.map_append, List.map_cons, List.nodup_append] at hnodup
  rw [← h, List.dropWhile_append_of_pos, List.dropWhile_cons_of_neg (by simp)]
  intro b hb
  exact decide_eq_true (hnodup.2.2 _ (List.mem_map_of_mem hb) _ List.mem_cons_self)

namespace CutFrame

variable (h : CutFrame ρ back f₀ f)

include h

theorem func_name : f.func.name = f₀.func.name := h.func.name

theorem value_eq : f.value = f₀.value := by
  funext v
  cases v with
  | const c => rfl
  | reg n => exact congrFun h.regs n

/-- Unless the piece ends and others follow, both come to the same. -/
theorem act_eq (hend : f.rest = [] → back = []) :
    (⟨f₀ :: fs₀, d, conf⟩ : State).act = (⟨f :: fs, d, conf⟩ : State).act := by
  unfold State.act
  cases hrest : f.rest with
  | nil =>
    have hback := hend hrest
    have hpiece := h.piece
    have hrest₀ := h.rest
    rw [hback] at hpiece hrest₀
    rw [hrest] at hrest₀
    have hoperands : f.block.term.operands = f₀.block.term.operands := by
      rw [hpiece.term_last]
      cases f₀.block.term <;> rfl
    rw [State.sight_of_nil hrest, State.sight_of_nil hrest₀, Option.bind_some, Option.bind_some,
      hoperands, h.value_eq, h.func_name, hpiece.term_last]
    exact (Sight.act_mapSuccs _ _ _ _ _ _).symm
  | cons i rest =>
    have hrest₀ := h.rest
    rw [hrest, List.cons_append] at hrest₀
    rw [State.sight_of_cons hrest, State.sight_of_cons hrest₀, h.value_eq, h.func_name]
    split_ifs
    · rfl
    · rfl

/-- Behind an instruction of both. -/
theorem past (i : Instr) (rest : List Instr) (regs : ℕ → BitVec 32) :
    CutFrame ρ back (f₀.past i (rest ++ back.flatMap Block.insts) regs) (f.past i rest regs) :=
  ⟨h.func, h.mem, h.piece, rfl, rfl⟩

theorem rest_of_cons {i : Instr} {rest : List Instr} (hrest : f.rest = i :: rest) :
    f₀.rest = i :: (rest ++ back.flatMap Block.insts) := by
  rw [h.rest, hrest, List.cons_append]

theorem rest_eq_nil (hrest₀ : f₀.rest = []) : f.rest = [] := by
  rw [h.rest] at hrest₀
  exact (List.append_eq_nil_iff.mp hrest₀).1

/-- Unless the piece ends and others follow, both have the same instruction next. -/
theorem exists_rest (hend : f.rest = [] → back = []) {i : Instr} {rest₀ : List Instr}
    (hrest₀ : f₀.rest = i :: rest₀) :
    ∃ rest, f.rest = i :: rest ∧ rest₀ = rest ++ back.flatMap Block.insts := by
  cases hrest : f.rest with
  | nil =>
    rw [h.rest, hrest, hend hrest] at hrest₀
    cases hrest₀
  | cons j rest =>
    rw [h.rest_of_cons hrest] at hrest₀
    cases hrest₀
    exact ⟨rest, rfl, rfl⟩

/-- After a call both have its result. -/
theorem withResult (res : Option ℕ) (v : Option (BitVec 32)) :
    CutFrame ρ back { f₀ with regs := setResult res v f₀.regs }
      { f with regs := setResult res v f.regs } :=
  ⟨h.func, h.mem, h.piece, h.rest, congrArg (setResult res v) h.regs⟩

end CutFrame

/-- Both at the start of a block. -/
theorem cutFrame_enter {F F' : Function} {b p : Block} (hF : CutInto ρ F F') (hb : b ∈ F.blocks)
    (hp : FirstPiece ρ F' b p back) (regs : ℕ → BitVec 32) :
    CutFrame ρ back (Frame.enter F b regs) (Frame.enter F' p regs) :=
  ⟨hF, hb, hp.toInPiece, hp.insts, rfl⟩

/-- The next piece is behind. -/
theorem CutFrame.behind_own {q : Block} (h : CutFrame ρ (q :: back) f₀ f) :
    (⟨Frame.enter f.func q f.regs :: fs, d, conf⟩ : State).behind <
      (⟨f :: fs, d, conf⟩ : State).behind := by
  obtain ⟨pre, post, hblocks⟩ := h.piece.blocks
  have hp : pre ++ f.block :: (q :: back ++ post) = f.func.blocks := by
    rw [← hblocks]
    simp
  have hq : (pre ++ [f.block]) ++ q :: (back ++ post) = f.func.blocks := by
    rw [← hblocks]
    simp
  show ((f.func.blocks.dropWhile fun b => decide (b.label ≠ q.label)).length) <
    (f.func.blocks.dropWhile fun b => decide (b.label ≠ f.block.label)).length
  rw [dropWhile_label h.func.verified' hp, dropWhile_label h.func.verified' hq,
    List.cons_append, List.length_cons, List.length_cons]
  exact Nat.lt_succ_self _

section Own

variable {q : Block} (h : CutFrame ρ (q :: back) f₀ f) (hrest : f.rest = [])

include h hrest

/-- At the end of a piece the call goes on in the next one. -/
theorem CutFrame.own : CutFrame ρ back f₀ (Frame.enter f.func q f.regs) := by
  refine ⟨h.func, h.mem, h.piece.next, ?_, h.regs⟩
  rw [h.rest, hrest, List.nil_append, List.flatMap_cons]
  rfl

theorem CutFrame.own_step (M' : IrModule) :
    Step M' ⟨f :: fs, d, conf⟩ .tau ⟨Frame.enter f.func q f.regs :: fs, d, conf⟩ := by
  refine .branch hrest ⟨h.piece.next.mem, ?_⟩ fun _ _ => rfl
  rw [h.piece.term_of_cons]
  exact List.mem_singleton_self _

theorem CutFrame.act_own : (⟨f :: fs, d, conf⟩ : State).act = none := by
  unfold State.act
  rw [State.sight_of_nil hrest, h.piece.term_of_cons]
  rfl

/-- It does nothing else there. -/
theorem CutFrame.eq_of_own {M' : IrModule} {l : Label} {s' : State}
    (hstep : Step M' ⟨f :: fs, d, conf⟩ l s') :
    s' = ⟨Frame.enter f.func q f.regs :: fs, d, conf⟩ := by
  have hterm := h.piece.term_of_cons
  rcases hstep.of_nil hrest with ⟨c, regs, hedge, hregs, -, rfl⟩ | ⟨_, _, _, _, _, _, _, hret, -⟩
  · obtain ⟨hc, hsucc⟩ := hedge
    rw [hterm] at hsucc
    obtain rfl := h.func.verified'.eq_of_label hc h.piece.next.mem (List.mem_singleton.mp hsucc)
    have hphis := h.piece.phis c List.mem_cons_self
    obtain rfl : regs = f.regs := by
      funext n
      refine hregs n fun p hp => ?_
      rw [hphis] at hp
      cases hp
    rfl
  · rw [hterm] at hret
    cases hret

end Own

end Frames

/-! ## Steps -/

/-- The functions of one module are those of the other one, cut. -/
def CutModule (M M' : IrModule) : Prop := List.Forall₂ (fun F F' => ∃ ρ, CutInto ρ F F') M M'

namespace CutModule

variable {M M' : IrModule} (hM : CutModule M M')

include hM

theorem exists_cut {F : Function} (hF : F ∈ M) : ∃ F' ∈ M', ∃ ρ, CutInto ρ F F' := by
  obtain ⟨hlength, hget⟩ := List.forall₂_iff_get.mp hM
  obtain ⟨i, hi, rfl⟩ := List.getElem_of_mem hF
  have hi' : i < M'.length := hlength ▸ hi
  exact ⟨_, List.getElem_mem hi', hget i hi hi'⟩

theorem exists_source {F' : Function} (hF' : F' ∈ M') : ∃ F ∈ M, ∃ ρ, CutInto ρ F F' := by
  obtain ⟨hlength, hget⟩ := List.forall₂_iff_get.mp hM
  obtain ⟨i, hi, rfl⟩ := List.getElem_of_mem hF'
  have hi' : i < M.length := hlength ▸ hi
  exact ⟨_, List.getElem_mem hi', hget i hi' hi⟩

theorem names_eq : M'.names = M.names := by
  unfold IrModule.names
  induction hM with
  | nil => rfl
  | cons hF _ ih =>
    obtain ⟨ρ, hcut⟩ := hF
    rw [List.map_cons, List.map_cons, hcut.name, ih]

end CutModule

section Steps

variable {M M' : IrModule} {ρ : ℕ → ℕ} {back : List Block} {f₀ f : Frame} {fs₀ fs : List Frame}
  {d : Device} {conf : BitVec 8 → Bool} {l : Label}

/-- A step of the split program, not one between pieces, is one of the source. -/
theorem CutFrame.follow (hM : CutModule M M') (top : CutFrame ρ back f₀ f)
    (below : List.Forall₂ CutWaiting fs₀ fs) (hend : f.rest = [] → back = []) {s' : State}
    (hstep : Step M' ⟨f :: fs, d, conf⟩ l s') :
    ∃ s₀', Step M ⟨f₀ :: fs₀, d, conf⟩ l s₀' ∧ CutSame s₀' s' := by
  cases hstep with
  | @register _ _ _ d' _ callee args res rest v hrest hcall =>
    rw [top.value_eq] at hcall ⊢
    rw [top.regs]
    exact ⟨_, .register (top.rest_of_cons hrest) hcall, .mk (top.past _ _ _) below⟩
  | @other _ _ _ _ opcode operands res rest hrest v =>
    rw [top.regs]
    exact ⟨_, .other (top.rest_of_cons hrest) v, .mk (top.past _ _ _) below⟩
  | @call _ _ _ _ callee args res rest H' b' hrest hcallee hH' hname hb' regs =>
    obtain ⟨H, hH, ρ', hcut⟩ := hM.exists_source hH'
    rcases hcut.head_cases with ⟨-, hnone⟩ | ⟨b, p, back', hb, hp, hfirst⟩
    · rw [hnone] at hb'
      cases hb'
    · obtain rfl := Option.some.inj (hp.symm.trans hb')
      refine ⟨_, .call (top.rest_of_cons hrest) hcallee hH (hcut.name.symm.trans hname) hb regs,
        .mk (cutFrame_enter hcut (List.mem_of_mem_head? hb) hfirst regs) ?_⟩
      rw [top.regs]
      exact .cons ⟨ρ, back, top.past _ _ _, List.getLast?_concat.trans List.getLast?_concat.symm⟩ below
  | @branch _ _ _ _ c' regs hrest hedge hregs =>
    obtain rfl := hend hrest
    have hrest₀ : f₀.rest = [] := by rw [top.rest, hrest]; rfl
    obtain ⟨c, back', hedge₀, hfirst⟩ := top.func.exists_edge top.mem top.piece hedge
    rw [hfirst.phis_first, top.regs] at hregs
    exact ⟨_, .branch hrest₀ hedge₀ hregs, .mk (cutFrame_enter top.func hedge₀.1 hfirst regs) below⟩
  | @ret _ g fs' _ _ callee args res hrest hret hdone v =>
    obtain rfl := hend hrest
    have hrest₀ : f₀.rest = [] := by rw [top.rest, hrest]; rfl
    rw [top.piece.term_last, Term.isRet_mapSuccs] at hret
    cases below with
    | cons hg below =>
      obtain ⟨ρ', back', hg, hlast⟩ := hg
      rw [top.func_name]
      exact ⟨_, .ret hrest₀ hret (hlast.trans hdone) v, .mk (hg.withResult res v) below⟩

/-- A step of the source is one of the split program, unless a branch between pieces is first. -/
theorem CutFrame.lead (hM : CutModule M M') (top : CutFrame ρ back f₀ f)
    (below : List.Forall₂ CutWaiting fs₀ fs) (hend : f.rest = [] → back = []) {s₀' : State}
    (hstep : Step M ⟨f₀ :: fs₀, d, conf⟩ l s₀') :
    ∃ s', Step M' ⟨f :: fs, d, conf⟩ l s' ∧ CutSame s₀' s' := by
  cases hstep with
  | @register _ _ _ d' _ callee args res rest₀ v hrest₀ hcall =>
    obtain ⟨rest, hrest, rfl⟩ := top.exists_rest hend hrest₀
    rw [← top.value_eq] at hcall ⊢
    rw [← top.regs]
    exact ⟨_, .register hrest hcall, .mk (top.past _ _ _) below⟩
  | @other _ _ _ _ opcode operands res rest₀ hrest₀ v =>
    obtain ⟨rest, hrest, rfl⟩ := top.exists_rest hend hrest₀
    rw [← top.regs]
    exact ⟨_, .other hrest v, .mk (top.past _ _ _) below⟩
  | @call _ _ _ _ callee args res rest₀ H b hrest₀ hcallee hH hname hb regs =>
    obtain ⟨rest, hrest, rfl⟩ := top.exists_rest hend hrest₀
    obtain ⟨H', hH', ρ', hcut⟩ := hM.exists_cut hH
    rcases hcut.head_cases with ⟨hnone, -⟩ | ⟨b', p, back', hb', hp, hfirst⟩
    · rw [hnone] at hb
      cases hb
    · obtain rfl := Option.some.inj (hb'.symm.trans hb)
      refine ⟨_, .call hrest hcallee hH' (hcut.name.trans hname) hp regs,
        .mk (cutFrame_enter hcut (List.mem_of_mem_head? hb) hfirst regs) ?_⟩
      rw [← top.regs]
      exact .cons ⟨ρ, back, top.past _ _ _, List.getLast?_concat.trans List.getLast?_concat.symm⟩ below
  | @branch _ _ _ _ c regs hrest₀ hedge hregs =>
    have hrest := top.rest_eq_nil hrest₀
    obtain rfl := hend hrest
    obtain ⟨p, back', hfirst⟩ := top.func.exists_first hedge.1
    rw [← hfirst.phis_first, ← top.regs] at hregs
    exact ⟨_, .branch hrest (top.piece.edge hedge hfirst) hregs,
      .mk (cutFrame_enter top.func hedge.1 hfirst regs) below⟩
  | @ret _ g fs' _ _ callee args res hrest₀ hret hdone v =>
    have hrest := top.rest_eq_nil hrest₀
    obtain rfl := hend hrest
    rw [← Term.isRet_mapSuccs ρ, ← top.piece.term_last] at hret
    cases below with
    | cons hg below =>
      obtain ⟨ρ', back', hg, hlast⟩ := hg
      rw [← top.func_name]
      exact ⟨_, .ret hrest hret (hlast.symm.trans hdone) v, .mk (hg.withResult res v) below⟩

/-- Both programs make their steps together, the split one its branches between pieces in between. -/
theorem CutSame.stutters (hM : CutModule M M') :
    Machine.Stutters (Step M) State.act (Step M') State.act CutSame State.behind := by
  refine ⟨fun {s₀ s l s'} h hstep => ?_, fun {s₀ s l s₀'} h hstep => ?_⟩
  · cases h with
    | @mk ρ back f₀ f fs₀ fs top below d conf =>
      by_cases hend : f.rest = [] → back = []
      · obtain ⟨s₀', hstep₀, hsame⟩ := top.follow hM below hend hstep
        exact .inl ⟨l, s₀', hstep₀, top.act_eq hend, hsame⟩
      · obtain ⟨hrest, hback⟩ := Classical.not_imp.mp hend
        obtain ⟨q, back, rfl⟩ := List.exists_cons_of_ne_nil hback
        obtain rfl := top.eq_of_own hrest hstep
        exact .inr ⟨top.act_own hrest, .mk (top.own hrest) below, top.behind_own⟩
  · cases h with
    | @mk ρ back f₀ f fs₀ fs top below d conf =>
      by_cases hend : f.rest = [] → back = []
      · obtain ⟨s', hstep', hsame⟩ := top.lead hM below hend hstep
        exact .inl ⟨l, s', hstep', top.act_eq hend, hsame⟩
      · obtain ⟨hrest, hback⟩ := Classical.not_imp.mp hend
        obtain ⟨q, back, rfl⟩ := List.exists_cons_of_ne_nil hback
        exact .inr ⟨_, _, top.own_step hrest M', top.act_own hrest, .mk (top.own hrest) below,
          top.behind_own⟩

end Steps

/-! ## The pass -/

theorem Term.mapSuccs_id (t : Term) : t.mapSuccs id = t := by
  cases t with
  | ret operands => rfl
  | branch operands succs => exact congrArg (branch operands) (List.map_id succs)

/-- A function that is left out has its blocks in one piece each. -/
theorem cutInto_self {F : Function} (hv : F.Verified) : CutInto id F F where
  name := rfl
  verified := hv
  verified' := hv
  pieces := by
    refine ⟨F.blocks.map fun b => [b], (List.flatMap_singleton' F.blocks).symm, ?_⟩
    rw [List.forall₂_map_right_iff, List.forall₂_same]
    intro b _
    exact ⟨List.append_nil _, rfl, rfl, ⟨b, rfl, rfl, (Term.mapSuccs_id _).symm⟩, .singleton b⟩

theorem SplitsInto.exists_cutInto {F F' : Function} (hv : F.Verified) (h : SplitsInto F F') :
    ∃ ρ, CutInto ρ F F' := by
  obtain ⟨ρ, pss, hblocks, hpieces⟩ := h.pieces
  exact ⟨ρ, h.name, hv, h.verified, pss, hblocks, hpieces⟩

/-- The pass cuts the functions of a program; what comes out is a program again. -/
theorem exists_splitProgram (L : LinkedModule) (hd : ∀ F ∈ L.functions, F.name ∉ splitSkips →
      ∀ b ∈ F.blocks, ∀ i ∈ b.insts, ¬ i.NullCallee) :
    ∃ L' : LinkedModule, splitModule L.functions = some L'.functions ∧
      CutModule L.functions L'.functions := by
  obtain ⟨M', hM', hcut⟩ := Loop.exists_mapM_eq_some (f := splitFunction)
    (R := fun F F' => ∃ ρ, CutInto ρ F F') (l := L.functions) fun F hF => by
      obtain ⟨F', hF', hcut⟩ := exists_splitFunction (L.verified F hF) (hd F hF)
      refine ⟨F', hF', ?_⟩
      split_ifs at hcut
      · rw [hcut]
        exact ⟨id, cutInto_self (L.verified F hF)⟩
      · exact hcut.exists_cutInto (L.verified F hF)
  have hnames : IrModule.names M' = L.functions.names := CutModule.names_eq hcut
  let L' : LinkedModule :=
    { functions := M'
      names_nodup := hnames ▸ L.names_nodup
      verified := fun F' hF' => by
        obtain ⟨F, -, ρ, h⟩ := CutModule.exists_source hcut hF'
        exact h.verified'
      plain := hnames ▸ L.plain
      has_config := hnames ▸ L.has_config
      has_addr := hnames ▸ L.has_addr
      has_size := hnames ▸ L.has_size }
  exact ⟨L', hM', hcut⟩

section Program

variable {L : LinkedModule} {M' : IrModule}

theorem SameEntry.cutSame (hM : CutModule L.functions M') {s₀ s : State} (h : SameEntry L M' s₀ s)
    (hdevice : s.device = s₀.device) (hconf : s.configured = s₀.configured) : CutSame s₀ s := by
  obtain ⟨F, hF, F', hF', hname, b, b', regs, hb, hb', hs₀, hs⟩ := h
  obtain ⟨G, hG, ρ, hcut⟩ := hM.exists_source hF'
  obtain rfl : G = F := List.inj_on_of_nodup_map L.names_nodup hG hF (hcut.name.symm.trans hname)
  rcases hcut.head_cases with ⟨hnone, -⟩ | ⟨c, p, back, hc, hp, hfirst⟩
  · rw [hnone] at hb
    cases hb
  · obtain rfl := Option.some.inj (hc.symm.trans hb)
    obtain rfl := Option.some.inj (hp.symm.trans hb')
    obtain ⟨frames₀, d₀, conf₀⟩ := s₀
    obtain ⟨frames, d, conf⟩ := s
    obtain rfl : frames₀ = _ := hs₀
    obtain rfl : frames = _ := hs
    obtain rfl : d = d₀ := hdevice
    obtain rfl : conf = conf₀ := hconf
    exact .mk (cutFrame_enter hcut (List.mem_of_mem_head? hb) hfirst regs) .nil

/-- **Splitting keeps the behaviour of a program.** From every function on, called with the same values
and the same registers of the MPU, the split program shows the instructions, returns and choices that the
source shows, through all calls, stops only where the source stops, and goes on unseen forever only if
the source can. -/
theorem splitModule_alike (L : LinkedModule) (hd : ∀ F ∈ L.functions, F.name ∉ splitSkips →
      ∀ b ∈ F.blocks, ∀ i ∈ b.insts, ¬ i.NullCallee) :
    ∃ L' : LinkedModule, splitModule L.functions = some L'.functions ∧
      ∀ s₀ s, SameEntry L L'.functions s₀ s → s.device = s₀.device → s.configured = s₀.configured →
        Machine.Alike (Step L.functions) State.act (Step L'.functions) State.act CutSame s₀ s := by
  obtain ⟨L', hL', hcut⟩ := exists_splitProgram L hd
  refine ⟨L', hL', fun s₀ s hs hdevice hconf => ?_⟩
  exact (CutSame.stutters hcut).alike (hs.cutSame hcut hdevice hconf)

/-- The program whose loop makes two calls a turn. -/
def loopProgram : LinkedModule where
  functions := loopModule

theorem splitModule_alike_loop : ∃ L' : LinkedModule,
    splitModule loopProgram.functions = some L'.functions ∧
      ∀ s₀ s, SameEntry loopProgram L'.functions s₀ s → s.device = s₀.device →
        s.configured = s₀.configured → Machine.Alike (Step loopProgram.functions) State.act
          (Step L'.functions) State.act CutSame s₀ s :=
  splitModule_alike loopProgram (by decide)

/-! ## Splitting before instrumenting -/

/-- The pieces hold no other instructions than the blocks. -/
theorem CutInto.exists_block {ρ : ℕ → ℕ} {F F' : Function} (h : CutInto ρ F F') {p : Block}
    (hp : p ∈ F'.blocks) {i : Instr} (hi : i ∈ p.insts) : ∃ b ∈ F.blocks, i ∈ b.insts := by
  obtain ⟨pss, hblocks, hpieces⟩ := h.pieces
  exact exists_block_of_pieces hpieces (hblocks ▸ hp) hi

section Instrumented

variable {M : IrModule} (hM : CutModule M M')

include hM

/-- What all instructions of the source satisfy those of the split program do. -/
theorem CutModule.forall_insts {P : Instr → Prop}
    (h : ∀ F ∈ M, ∀ b ∈ F.blocks, ∀ i ∈ b.insts, P i) :
    ∀ F' ∈ M', ∀ p ∈ F'.blocks, ∀ i ∈ p.insts, P i := by
  intro F' hF' p hp i hi
  obtain ⟨F, hF, ρ, hcut⟩ := hM.exists_source hF'
  obtain ⟨b, hb, hmem⟩ := hcut.exists_block hp hi
  exact h F hF b hb i hmem

theorem CutModule.direct (hd : M.Direct) : M'.Direct := by
  unfold IrModule.Direct
  rw [hM.names_eq]
  exact hM.forall_insts hd

end Instrumented

/-- **Splitting and instrumenting keep the behaviour.** If the source makes direct calls only, none to
the functions of `mpu_configure.c`, then `Split_BB` runs through, and whenever the three passes after it
do, whatever the variables of `Connect_Function` held and whatever is in the registers of the MPU, what
comes out shows the instructions, returns and choices of the source, from every function on. -/
theorem split_runPasses_alike (L : LinkedModule) (hd : L.functions.Direct)
    (hn : NoRegisters L.functions) :
    ∃ L' : LinkedModule, splitModule L.functions = some L'.functions ∧
      ∀ (stale : Stale) (T : LinkTable) (M : IrModule), runPasses stale T.table L'.functions = some M →
        ∀ s₀ s, SameEntry L M s₀ s →
          Machine.Alike (Step L.functions) State.act (Step M) State.act
            (fun s₀ s => ∃ s₁, CutSame s₀ s₁ ∧ Same L'.functions (fun F => finalBlock L' stale T F)
              (fun F => (insertedFunction F).freshReg) s₁ s) s₀ s := by
  obtain ⟨L', hsplit, hcut⟩ := exists_splitProgram L fun F hF _ b hb i hi =>
    (hd F hF b hb i hi).not_nullCallee
  have hd' := hcut.direct hd
  have hn' : NoRegisters L'.functions := hcut.forall_insts hn
  refine ⟨L', hsplit, fun stale T M hM s₀ s hs => ?_⟩
  obtain ⟨hmap, -⟩ := runPasses_eq_some hd' hM
  obtain ⟨F, hF, F'', hF'', hname, b, b'', regs, hb, hb'', hs₀, hs⟩ := hs
  obtain ⟨F', hF', ρ, hFcut⟩ := hcut.exists_cut hF
  rcases hFcut.head_cases with ⟨hnone, -⟩ | ⟨c, p, back, -, hp, -⟩
  · rw [hnone] at hb
    cases hb
  · -- the split program starts with the registers of the source
    let s₁ : State := ⟨[Frame.enter F' p regs], s₀.device, s₀.configured⟩
    have hfirst : CutSame s₀ s₁ := by
      refine SameEntry.cutSame hcut ?_ rfl rfl
      exact ⟨F, hF, F', hF', hFcut.name, b, p, regs, hb, hp, hs₀, rfl⟩
    have hsecond : SameEntry L' M s₁ s :=
      ⟨F', hF', F'', hF'', hname.trans hFcut.name.symm, p, b'', regs, hp, hb'', rfl, hs⟩
    have hsame := hsecond.same hmap hd' hn'
    rw [hmap]
    have hinstrumented := ((Same.stutters (addsCalls_finalBlock hd' hn')).forget Sight.act).alike hsame
    exact ((CutSame.stutters hcut).alike hfirst).trans hinstrumented

/-- A program whose first function makes two calls in one block. -/
def twiceProgram : LinkedModule where
  functions := { mainFunction with blocks := [
    { label := 0, insts := [.call (some sumFunction.name) [.const 3] (some 0),
        .call (some sumFunction.name) [.reg 0] (some 1)], term := .ret [] }] } ::
    sumFunction :: mpuSources

/-- It is split, and the passes run through behind. -/
theorem split_runPasses_alike_twice : ∃ (L' : LinkedModule) (M : IrModule),
    splitModule twiceProgram.functions = some L'.functions ∧
      runPasses keptVals benchmarkTable.table L'.functions = some M ∧
      ∀ s₀ s, SameEntry twiceProgram M s₀ s →
        Machine.Alike (Step twiceProgram.functions) State.act (Step M) State.act
          (fun s₀ s => ∃ s₁, CutSame s₀ s₁ ∧ Same L'.functions
            (fun F => finalBlock L' keptVals benchmarkTable F)
            (fun F => (insertedFunction F).freshReg) s₁ s) s₀ s := by
  obtain ⟨L', hsplit, hall⟩ := split_runPasses_alike twiceProgram (by decide) (by decide)
  have hsome : ((splitModule twiceProgram.functions).bind
      (runPasses keptVals benchmarkTable.table)).isSome := by decide
  rw [hsplit, Option.bind_some] at hsome
  obtain ⟨M, hM⟩ := Option.isSome_iff_exists.mp hsome
  exact ⟨L', M, hsplit, hM, hall keptVals benchmarkTable M hM⟩

end Program

end MpuPasses
