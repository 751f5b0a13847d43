import MpuPasses.Lib.Cursor
import MpuPasses.SplitBlock

/-!
# `Split_BB`

The pass cuts a block in front of every call but the first. While it walks over the instructions the
part behind the iterator keeps the block's identity and what is in front moves to a new block, so the
iterator over the blocks never meets a piece. `splitModule_splits` says what comes out.
-/

namespace MpuPasses

open Chars

/-! ## The pass -/

/-- The functions that the pass skips. -/
def splitSkips : List Str :=
  [mpuConfigName, mpuZeroRegionName, readCallerAddrName, readCallerSizeName]

/-- The number of a new block. -/
def freshLabel (blocks : List Block) : ℕ := (blocks.map Block.label).foldr max 0 + 1

/-- Where the loop over the instructions stands: the blocks before `BB`, `BB` with the instructions
in front of `BI`, the blocks behind it, and `call_cnt`. -/
structure SplitState where
  before : List Block
  bb : Block
  after : List Block
  callCnt : ℕ := 0
  deriving DecidableEq, Repr

/-- `BB->splitBasicBlock(BI,"",true)`. -/
def SplitState.splitBefore (s : SplitState) : SplitState :=
  let new := freshLabel (s.before ++ s.bb :: s.after)
  { s with
    before := s.before.map (Block.mapSuccs (redirect s.bb.label new)) ++
      [s.bb.frontPiece new s.bb.insts]
    bb := s.bb.backPiece new []
    after := s.after.map (Block.mapSuccs (redirect s.bb.label new)) }

/-- `++BI`. -/
def SplitState.advance (s : SplitState) (inst : Instr) : SplitState :=
  { s with bb := { s.bb with insts := s.bb.insts ++ [inst] } }

/-- One turn of the loop over the instructions; none dereferences a null callee. A block with a call
does not begin with its terminator, so the second half of the test holds at every call. -/
def splitTurn (s : SplitState) (inst : Instr) : Option SplitState :=
  match inst with
  | .call none _ _ => none
  | .call (some _) _ _ =>
    let s := { s with callCnt := s.callCnt + 1 }
    some ((if s.callCnt > 1 then s.splitBefore else s).advance inst)
  | .other _ _ _ => some (s.advance inst)

/-- One turn of the loop over the blocks. -/
def splitBB (s : Cursor.State Block) : Option (Cursor.State Block) :=
  match s.rest with
  | [] => some s
  | bb :: after =>
    (Loop.forEach splitTurn { before := s.done, bb := { bb with insts := [] }, after := after }
      bb.insts).map fun t => ⟨t.before ++ [t.bb], t.after⟩

/-- What the pass makes of a function. -/
def splitFunction (F : Function) : Option Function :=
  if F.name ∈ splitSkips then some F
  else (Loop.run (fun s => !s.rest.isEmpty) splitBB (F.blocks.length + 1) ⟨[], F.blocks⟩).final?.map
    fun s => { F with blocks := s.done }

/-- `Split_BB::runOnModule`. -/
def splitModule (M : IrModule) : Option IrModule := M.mapM splitFunction

/-! ## Pieces -/

def Instr.isCall : Instr → Bool
  | call _ _ _ => true
  | other _ _ _ => false

/-- The number of calls in a block. -/
def Block.calls (b : Block) : ℕ := b.insts.countP Instr.isCall

/-- A block in pieces, in a function where the block of label `l` is entered through the block of
label `ρ l`. Together the pieces hold its instructions; the first has its PHI nodes, the last its
label and its terminator, and every other leads to the next. -/
structure PiecesOf (ρ : ℕ → ℕ) (b : Block) (ps : List Block) : Prop where
  insts : ps.flatMap Block.insts = b.insts
  entry : ps.head?.map Block.label = some (ρ b.label)
  phis : ps.map Block.phis = b.phis :: List.replicate (ps.length - 1) []
  last : ∃ p ∈ ps.getLast?, p.label = b.label ∧ p.term = b.term.mapSuccs ρ
  chain : ps.IsChain fun p q => p.term = .branch [] [q.label]

theorem piecesOf_singleton {ρ : ℕ → ℕ} {b : Block} (h : ρ b.label = b.label) :
    PiecesOf ρ b [b.mapSuccs ρ] where
  insts := List.append_nil _
  entry := congrArg some h.symm
  phis := rfl
  last := ⟨_, rfl, rfl, rfl⟩
  chain := .singleton _

theorem chain_mapSuccs {ps : List Block} (h : ps.IsChain fun p q => p.term = .branch [] [q.label])
    {old new : ℕ} (hne : ∀ p ∈ ps, p.label ≠ old) :
    (ps.map (Block.mapSuccs (redirect old new))).IsChain
      fun p q => p.term = .branch [] [q.label] := by
  rw [List.isChain_map]
  refine h.imp_of_mem_imp fun p q _ hq hpq => ?_
  show p.term.mapSuccs (redirect old new) = .branch [] [q.label]
  rw [hpq]
  exact congrArg (Term.branch []) (congrArg (· :: []) (redirect_of_ne (hne q hq)))

/-- Pieces are not touched by a redirection of another block. -/
theorem PiecesOf.mapSuccs {ρ : ℕ → ℕ} {b : Block} {ps : List Block} (h : PiecesOf ρ b ps)
    {old new : ℕ} (hne : ∀ p ∈ ps, p.label ≠ old) :
    PiecesOf (redirect old new ∘ ρ) b (ps.map (Block.mapSuccs (redirect old new))) where
  insts := by
    rw [List.flatMap_map]
    exact h.insts
  entry := by
    obtain ⟨p, hp, hlabel⟩ := Option.map_eq_some_iff.mp h.entry
    rw [List.head?_map, Option.map_map, hp, Function.comp_apply, ← hlabel,
      redirect_of_ne (hne p (List.mem_of_mem_head? hp))]
    rfl
  phis := by
    rw [List.map_map, List.length_map]
    exact h.phis
  last := by
    obtain ⟨p, hp, hlabel, hterm⟩ := h.last
    refine ⟨p.mapSuccs (redirect old new), ?_, hlabel, ?_⟩
    · rw [List.getLast?_map, Option.mem_def.mp hp]
      rfl
    · unfold Block.mapSuccs
      rw [hterm]
      exact Term.mapSuccs_mapSuccs _ _ _
  chain := chain_mapSuccs h.chain hne

theorem forall₂_mapSuccs {ρ : ℕ → ℕ} {old new : ℕ} {bs : List Block} {pss : List (List Block)}
    (h : List.Forall₂ (PiecesOf ρ) bs pss) (hne : ∀ ps ∈ pss, ∀ p ∈ ps, p.label ≠ old) :
    List.Forall₂ (PiecesOf (redirect old new ∘ ρ)) bs
      (pss.map (List.map (Block.mapSuccs (redirect old new)))) := by
  induction h with
  | nil => exact .nil
  | cons hps _ ih =>
    obtain ⟨hne, hrest⟩ := List.forall_mem_cons.mp hne
    exact .cons (hps.mapSuccs hne) (ih hrest)

/-- The split of the last piece gives pieces again. -/
theorem PiecesOf.split {ρ : ℕ → ℕ} {b bb : Block} {cuts : List Block}
    (h : PiecesOf ρ b (cuts ++ [bb])) {front back : List Instr} (hinsts : bb.insts = front ++ back)
    (hne : ∀ p ∈ cuts, p.label ≠ bb.label) (new : ℕ) :
    PiecesOf (redirect bb.label new ∘ ρ) b
      (cuts.map (Block.mapSuccs (redirect bb.label new)) ++ [bb.frontPiece new front] ++
        [bb.backPiece new back]) := by
  obtain ⟨p, hp, hlabel, hterm⟩ := h.last
  rw [List.getLast?_concat] at hp
  obtain rfl := Option.some.inj hp
  obtain ⟨hcuts, -, hlast⟩ := List.isChain_append.mp h.chain
  constructor
  · have hall := h.insts
    rw [List.flatMap_append, List.flatMap_singleton, hinsts, ← List.append_assoc] at hall
    rw [List.flatMap_append, List.flatMap_append, List.flatMap_map, List.flatMap_singleton,
      List.flatMap_singleton]
    exact hall
  · have hentry := h.entry
    rw [Function.comp_apply]
    cases cuts with
    | nil =>
      rw [← Option.some.inj hentry, redirect_self]
      rfl
    | cons q cuts =>
      rw [← Option.some.inj hentry, redirect_of_ne (hne q List.mem_cons_self)]
      rfl
  · have hphis := h.phis
    rw [List.map_append, List.length_append, List.length_singleton, Nat.add_sub_cancel] at hphis
    rw [List.map_append, List.map_append, List.map_map, List.length_append, List.length_append,
      List.length_map, List.length_singleton, List.length_singleton, Nat.add_sub_cancel,
      List.replicate_succ', ← List.cons_append, ← hphis]
    rfl
  · refine ⟨bb.backPiece new back, List.getLast?_concat, hlabel, ?_⟩
    unfold Block.backPiece
    rw [hterm]
    exact Term.mapSuccs_mapSuccs _ _ _
  · refine ((chain_mapSuccs hcuts hne).append (.singleton _) ?_).append (.singleton _) ?_
    · intro q' hq' r hr
      rw [List.getLast?_map] at hq'
      obtain ⟨q, hq, rfl⟩ := Option.map_eq_some_iff.mp hq'
      obtain rfl := Option.some.inj hr
      show q.term.mapSuccs _ = .branch [] [new]
      rw [hlast q hq bb rfl]
      exact congrArg (Term.branch []) (congrArg (· :: []) (redirect_self _ _))
    · intro q hq r hr
      rw [List.getLast?_concat] at hq
      obtain rfl := Option.some.inj hq
      obtain rfl := Option.some.inj hr
      rfl

/-! ## The loop over the instructions -/

def Function.withBlocks (F : Function) (blocks : List Block) : Function := { F with blocks := blocks }

/-- The blocks are those of a function that does what `F` does. -/
structure SameFunction (F : Function) (blocks : List Block) : Prop where
  verified : (F.withBlocks blocks).Verified
  traces : (F.withBlocks blocks).Traces = F.Traces

/-- `BB` with the instructions from `BI` on. -/
def SplitState.whole (s : SplitState) (rest : List Instr) : Block :=
  { s.bb with insts := s.bb.insts ++ rest }

def SplitState.blocks (s : SplitState) (rest : List Instr) : List Block :=
  s.before ++ s.whole rest :: s.after

/-- What holds in the loop over the instructions of `b`, with `rest` still to come: the blocks before
are the pieces of `done` and the first pieces of `b`, those behind are `todo`, whose branches may
have been redirected. -/
structure SplitInv (F : Function) (done : List Block) (b : Block) (todo : List Block)
    (rest : List Instr) (s : SplitState) : Prop where
  same : SameFunction F (s.blocks rest)
  direct : ∀ i ∈ rest, ¬ i.NullCallee
  calls : ∀ c ∈ s.before, c.calls ≤ 1
  calls_bb : s.bb.calls ≤ min 1 s.callCnt
  pieces : ∃ ρ pss cuts, s.before = pss.flatten ++ cuts ∧ List.Forall₂ (PiecesOf ρ) done pss ∧
    PiecesOf ρ b (cuts ++ [s.whole rest]) ∧ s.after = todo.map (Block.mapSuccs ρ) ∧
    ∀ c ∈ todo, ρ c.label = c.label

theorem freshLabel_notMem (blocks : List Block) : freshLabel blocks ∉ blocks.map Block.label := by
  intro h
  exact absurd (le_foldr_max h) (Nat.not_succ_le_self _)

theorem Block.calls_concat (b : Block) (inst : Instr) :
    ({ b with insts := b.insts ++ [inst] } : Block).calls =
      b.calls + if inst.isCall then 1 else 0 := by
  unfold Block.calls
  rw [List.countP_append, List.countP_singleton]

section Turn

variable {F : Function} {done : List Block} {b : Block} {todo : List Block} {rest : List Instr}
  {s : SplitState}

theorem whole_advance (s : SplitState) (inst : Instr) (rest : List Instr) :
    (s.advance inst).whole rest = s.whole (inst :: rest) := by
  unfold SplitState.whole SplitState.advance
  simp only [List.append_assoc, List.singleton_append]

theorem splitInv_advance {inst : Instr} (h : SplitInv F done b todo (inst :: rest) s)
    (hcalls : (s.advance inst).bb.calls ≤ min 1 s.callCnt) :
    SplitInv F done b todo rest (s.advance inst) where
  same := by
    unfold SplitState.blocks
    rw [whole_advance]
    exact h.same
  direct := fun i hi => h.direct i (List.mem_cons_of_mem inst hi)
  calls := h.calls
  calls_bb := hcalls
  pieces := by
    rw [whole_advance]
    exact h.pieces

theorem freshLabel_notMem_blocks (s : SplitState) (rest : List Instr) :
    freshLabel (s.before ++ s.bb :: s.after) ∉ (s.blocks rest).map Block.label := by
  have hlabels : (s.blocks rest).map Block.label = (s.before ++ s.bb :: s.after).map Block.label := by
    unfold SplitState.blocks
    rw [List.map_append, List.map_append]
    rfl
  rw [hlabels]
  exact freshLabel_notMem _

theorem blocks_splitBefore (s : SplitState) (rest : List Instr) :
    s.splitBefore.blocks rest = splitAt s.before (s.whole rest) s.after
      (freshLabel (s.before ++ s.bb :: s.after)) s.bb.insts rest := by
  unfold SplitState.blocks SplitState.splitBefore splitAt
  simp only [List.append_assoc]
  rfl

theorem SameFunction.splitBefore (h : SameFunction F (s.blocks rest)) :
    SameFunction F (s.splitBefore.blocks rest) := by
  have hblocks : (F.withBlocks (s.blocks rest)).blocks = s.before ++ s.whole rest :: s.after := rfl
  have hinsts : (s.whole rest).insts = s.bb.insts ++ rest := rfl
  have hnew := freshLabel_notMem_blocks s rest
  have hverified : ((F.withBlocks (s.blocks rest)).split s.before (s.whole rest) s.after _
      s.bb.insts rest).Verified := verified_split hblocks h.verified hnew
  rw [blocks_splitBefore]
  constructor
  · exact hverified
  · exact (traces_split hblocks h.verified hnew hinsts).trans h.traces

/-- Splitting in front of the iterator. -/
theorem splitInv_splitBefore (h : SplitInv F done b todo rest s) :
    SplitInv F done b todo rest s.splitBefore := by
  have hblocks : (F.withBlocks (s.blocks rest)).blocks = s.before ++ s.whole rest :: s.after := rfl
  have hpre := label_ne_of_mem_pre hblocks h.same.verified
  have hpost := label_ne_of_mem_post hblocks h.same.verified
  constructor
  · exact h.same.splitBefore
  · exact h.direct
  · have hbb : s.bb.calls ≤ 1 := h.calls_bb.trans (min_le_left _ _)
    intro c hc
    rcases List.mem_append.mp hc with hc | hc
    · obtain ⟨c, hmem, rfl⟩ := List.mem_map.mp hc
      exact h.calls c hmem
    · obtain rfl := List.mem_singleton.mp hc
      exact hbb
  · exact Nat.zero_le _
  · obtain ⟨ρ, pss, cuts, hbefore, hdone, hcurrent, hafter, htodo⟩ := h.pieces
    rw [hbefore] at hpre
    have hpss : ∀ ps ∈ pss, ∀ p ∈ ps, p.label ≠ (s.whole rest).label := fun ps hps p hp =>
      hpre p (List.mem_append_left _ (List.mem_flatten.mpr ⟨ps, hps, hp⟩))
    have hcuts : ∀ p ∈ cuts, p.label ≠ (s.whole rest).label := fun p hp =>
      hpre p (List.mem_append_right _ hp)
    refine ⟨redirect s.bb.label (freshLabel (s.before ++ s.bb :: s.after)) ∘ ρ,
      pss.map (List.map (Block.mapSuccs
        (redirect s.bb.label (freshLabel (s.before ++ s.bb :: s.after))))),
      cuts.map (Block.mapSuccs (redirect s.bb.label (freshLabel (s.before ++ s.bb :: s.after)))) ++
        [s.bb.frontPiece (freshLabel (s.before ++ s.bb :: s.after)) s.bb.insts], ?_, ?_, ?_, ?_, ?_⟩
    · unfold SplitState.splitBefore
      simp only
      rw [hbefore, List.map_append, List.map_flatten, List.append_assoc]
    · exact forall₂_mapSuccs hdone hpss
    · exact hcurrent.split rfl hcuts _
    · unfold SplitState.splitBefore
      simp only
      rw [hafter, List.map_map]
      exact List.map_congr_left fun c _ => Block.mapSuccs_mapSuccs _ _ c
    · intro c hc
      have hne : c.label ≠ s.bb.label :=
        hpost (c.mapSuccs ρ) (hafter ▸ List.mem_map_of_mem hc)
      rw [Function.comp_apply, htodo c hc, redirect_of_ne hne]

theorem splitInv_turn {inst : Instr} (h : SplitInv F done b todo (inst :: rest) s) :
    ∃ t, splitTurn s inst = some t ∧ SplitInv F done b todo rest t := by
  have hdirect := h.direct inst List.mem_cons_self
  cases inst with
  | other opcode operands res =>
    refine ⟨_, rfl, splitInv_advance h ?_⟩
    rw [SplitState.advance, Block.calls_concat]
    exact h.calls_bb
  | call callee args res =>
    cases callee with
    | none => exact absurd trivial hdirect
    | some callee =>
      have hcnt : SplitInv F done b todo (.call (some callee) args res :: rest)
          { s with callCnt := s.callCnt + 1 } :=
        { h with calls_bb := h.calls_bb.trans (min_le_min le_rfl (Nat.le_succ _)) }
      by_cases hmore : s.callCnt + 1 > 1
      · refine ⟨_, by rw [splitTurn]; simp only [if_pos hmore], splitInv_advance
          (splitInv_splitBefore hcnt) ?_⟩
        rw [SplitState.advance, Block.calls_concat]
        exact le_min le_rfl (Nat.le_of_lt hmore)
      · refine ⟨_, by rw [splitTurn]; simp only [if_neg hmore], splitInv_advance hcnt ?_⟩
        have hzero : s.callCnt = 0 := by omega
        have hbb := h.calls_bb
        rw [hzero, min_eq_right (Nat.zero_le 1)] at hbb
        rw [SplitState.advance, Block.calls_concat, Nat.le_zero.mp hbb, hzero]
        exact le_rfl

end Turn

/-! ## The loop over the blocks -/

/-- What holds in the loop over the blocks: those before the iterator are the pieces of `done`, those
from it on are `todo`. -/
structure BlocksInv (F : Function) (s : Cursor.State Block) : Prop where
  same : SameFunction F (s.done ++ s.rest)
  calls : ∀ c ∈ s.done, c.calls ≤ 1
  direct : ∀ c ∈ s.rest, ∀ i ∈ c.insts, ¬ i.NullCallee
  pieces : ∃ ρ done todo pss, F.blocks = done ++ todo ∧ s.done = pss.flatten ∧
    List.Forall₂ (PiecesOf ρ) done pss ∧ s.rest = todo.map (Block.mapSuccs ρ) ∧
    ∀ c ∈ todo, ρ c.label = c.label

section Step

variable {F : Function} {ρ : ℕ → ℕ} {done todo : List Block} {b : Block} {pss : List (List Block)}
  {s : Cursor.State Block}

/-- The loop over the instructions starts with the block whole. -/
theorem BlocksInv.splitInv (h : BlocksInv F s) (hdone : s.done = pss.flatten)
    (hpieces : List.Forall₂ (PiecesOf ρ) done pss)
    (hrest : s.rest = (b :: todo).map (Block.mapSuccs ρ))
    (hkeep : ∀ c ∈ b :: todo, ρ c.label = c.label) :
    SplitInv F done b todo b.insts
      { before := s.done, bb := { b.mapSuccs ρ with insts := [] },
        after := todo.map (Block.mapSuccs ρ) } := by
  obtain ⟨hb, htodo⟩ := List.forall_mem_cons.mp hkeep
  have hsame := h.same
  have hdirect := h.direct
  rw [hrest, List.map_cons] at hsame hdirect
  have hbefore : s.done = pss.flatten ++ [] := by rw [List.append_nil, hdone]
  constructor
  · exact hsame
  · exact (List.forall_mem_cons.mp hdirect).1
  · exact h.calls
  · exact Nat.zero_le _
  · exact ⟨ρ, pss, [], hbefore, hpieces, piecesOf_singleton hb, rfl, htodo⟩

/-- It ends with the block cut into pieces. -/
theorem SplitInv.blocksInv {t : SplitState} (h : SplitInv F done b todo [] t)
    (hF : F.blocks = done ++ b :: todo) (hdirect : ∀ c ∈ todo, ∀ i ∈ c.insts, ¬ i.NullCallee) :
    BlocksInv F ⟨t.before ++ [t.bb], t.after⟩ := by
  obtain ⟨ρ, pss, cuts, hbefore, hpieces, hcurrent, hafter, htodo⟩ := h.pieces
  have hwhole : t.whole [] = t.bb := by
    unfold SplitState.whole
    rw [List.append_nil]
  rw [hwhole] at hcurrent
  constructor
  · have hsame := h.same
    unfold SplitState.blocks at hsame
    rw [hwhole] at hsame
    rw [List.append_assoc]
    exact hsame
  · intro c hc
    rcases List.mem_append.mp hc with hc | hc
    · exact h.calls c hc
    · obtain rfl := List.mem_singleton.mp hc
      exact h.calls_bb.trans (min_le_left _ _)
  · intro c' hc'
    rw [hafter] at hc'
    obtain ⟨c, hc, rfl⟩ := List.mem_map.mp hc'
    exact hdirect c hc
  · refine ⟨ρ, done ++ [b], todo, pss ++ [cuts ++ [t.bb]], ?_, ?_, ?_, hafter, htodo⟩
    · rw [hF, List.append_assoc]
      rfl
    · rw [List.flatten_append, List.flatten_singleton, hbefore, List.append_assoc]
    · exact List.rel_append hpieces (.cons hcurrent .nil)

/-- One block is cut into pieces. -/
theorem blocksInv_step (h : BlocksInv F s) (hmore : (!s.rest.isEmpty) = true) :
    ∃ t, splitBB s = some t ∧ BlocksInv F t ∧ t.rest.length < s.rest.length := by
  obtain ⟨ρ, done, todo, pss, hF, hdone, hpieces, hrest, hkeep⟩ := h.pieces
  cases todo with
  | nil =>
    rw [hrest] at hmore
    cases hmore
  | cons b todo =>
    obtain ⟨t, ht, hinv⟩ := Loop.exists_forEach_eq_some
      (fun rest s => SplitInv F done b todo rest s) (fun _ _ _ => splitInv_turn)
      (h.splitInv hdone hpieces hrest hkeep)
    have hdirect : ∀ c ∈ todo, ∀ i ∈ c.insts, ¬ i.NullCallee := fun c hc =>
      h.direct (c.mapSuccs ρ) (by rw [hrest]; exact List.mem_map_of_mem (List.mem_cons_of_mem b hc))
    refine ⟨⟨t.before ++ [t.bb], t.after⟩, ?_, hinv.blocksInv hF hdirect, ?_⟩
    · unfold splitBB
      rw [hrest]
      exact congrArg (Option.map _) ht
    · obtain ⟨ρ', -, -, -, -, -, hafter, -⟩ := hinv.pieces
      rw [hrest, hafter, List.length_map, List.length_map, List.length_cons]
      exact Nat.lt_succ_self _

end Step

/-- What the pass is to make of a function: no block has two calls, the blocks are the pieces of the
old ones, and the function does what it did. -/
structure SplitsInto (F F' : Function) : Prop where
  name : F'.name = F.name
  verified : F'.Verified
  calls : ∀ b ∈ F'.blocks, b.calls ≤ 1
  pieces : ∃ ρ pss, F'.blocks = pss.flatten ∧ List.Forall₂ (PiecesOf ρ) F.blocks pss
  traces : F'.Traces = F.Traces

theorem splitFunction_splits {F : Function} (hv : F.Verified) (hskip : F.name ∉ splitSkips)
    (hd : ∀ b ∈ F.blocks, ∀ i ∈ b.insts, ¬ i.NullCallee) :
    ∃ F', splitFunction F = some F' ∧ SplitsInto F F' := by
  have hkeep : F.blocks.map (Block.mapSuccs id) = F.blocks := by
    have hid : Block.mapSuccs id = id := by
      funext b
      obtain ⟨label, phis, insts, term⟩ := b
      cases term with
      | ret operands => rfl
      | branch operands succs =>
        exact congrArg (fun l => Block.mk label phis insts (.branch operands l)) (List.map_id succs)
    rw [hid, List.map_id]
  have hstart : BlocksInv F ⟨[], F.blocks⟩ :=
    { same := ⟨hv, rfl⟩
      calls := by simp
      direct := hd
      pieces := ⟨id, [], F.blocks, [], rfl, rfl, .nil, hkeep.symm, fun _ _ => rfl⟩ }
  obtain ⟨s, hrun, hinv, hend⟩ := Loop.exists_run_eq_done (BlocksInv F) (fun s => s.rest.length)
    (fun s hs hmore => blocksInv_step hs hmore) hstart (Nat.lt_succ_self F.blocks.length)
  obtain ⟨ρ, done, todo, pss, hF, hdone, hpieces, hrest, -⟩ := hinv.pieces
  have hnil : s.rest = [] := by simpa using hend
  have hsame := hinv.same
  rw [hnil, List.append_nil] at hsame
  have htodo : todo = [] := List.map_eq_nil_iff.mp (hrest.symm.trans hnil)
  rw [htodo, List.append_nil] at hF
  refine ⟨F.withBlocks s.done, ?_, rfl, hsame.verified, hinv.calls, ⟨ρ, pss, hdone, ?_⟩,
    hsame.traces⟩
  · unfold splitFunction
    rw [if_neg hskip, hrun]
    rfl
  · rw [hF]
    exact hpieces

/-- Functions that are left out stay as they are. -/
theorem exists_splitFunction {F : Function} (hv : F.Verified)
    (hd : F.name ∉ splitSkips → ∀ b ∈ F.blocks, ∀ i ∈ b.insts, ¬ i.NullCallee) :
    ∃ F', splitFunction F = some F' ∧ if F.name ∈ splitSkips then F' = F else SplitsInto F F' := by
  by_cases hskip : F.name ∈ splitSkips
  · refine ⟨F, if_pos hskip, ?_⟩
    rw [if_pos hskip]
  · obtain ⟨F', hF', hsplits⟩ := splitFunction_splits hv hskip (hd hskip)
    refine ⟨F', hF', ?_⟩
    rw [if_neg hskip]
    exact hsplits

/-- **What the pass makes of a module** whose processed functions have direct calls only: every such
function is cut so that no block has two calls, and still does the same; the others are unchanged. -/
theorem splitModule_splits {M : IrModule} (hv : ∀ F ∈ M, F.Verified)
    (hd : ∀ F ∈ M, F.name ∉ splitSkips → ∀ b ∈ F.blocks, ∀ i ∈ b.insts, ¬ i.NullCallee) :
    ∃ M', splitModule M = some M' ∧
      List.Forall₂ (fun F F' => if F.name ∈ splitSkips then F' = F else SplitsInto F F') M M' := by
  apply Loop.exists_mapM_eq_some
  intro F hF
  exact exists_splitFunction (hv F hF) (hd F hF)

/-- A function whose only loop makes two calls a turn. -/
def loopFunction : Function where
  name := "Loop".toList
  blocks := [
    { label := 0, insts := [], term := .branch [] [1] },
    { label := 1, phis := [⟨0, [(0, .const 0), (1, .reg 2)]⟩],
      insts := [.call (some sumFunction.name) [.reg 0] (some 1), .other 13 [.reg 1] (some 3),
        .call (some sumFunction.name) [.reg 3] (some 2)],
      term := .branch [.reg 2] [1, 2] },
    { label := 2, insts := [], term := .ret [.reg 2] }]

def loopModule : IrModule := loopFunction :: sumFunction :: mpuSources

theorem splitModule_splits_loop : ∃ M', splitModule loopModule = some M' ∧
    List.Forall₂ (fun F F' => if F.name ∈ splitSkips then F' = F else SplitsInto F F')
      loopModule M' :=
  splitModule_splits (by decide) (by decide)

/-- Its second block is cut in front of the second call, and both ways into it lead to the new one. -/
example : splitFunction loopFunction = some { loopFunction with blocks := [
    { label := 0, insts := [], term := .branch [] [3] },
    { label := 3, phis := [⟨0, [(0, .const 0), (1, .reg 2)]⟩],
      insts := [.call (some sumFunction.name) [.reg 0] (some 1), .other 13 [.reg 1] (some 3)],
      term := .branch [] [1] },
    { label := 1, insts := [.call (some sumFunction.name) [.reg 3] (some 2)],
      term := .branch [.reg 2] [3, 2] },
    { label := 2, insts := [], term := .ret [.reg 2] }] } := by decide

/-! ## Splitting again -/

/-- The pieces hold no other instructions than the blocks. -/
theorem exists_block_of_pieces {ρ : ℕ → ℕ} {bs : List Block} {pss : List (List Block)}
    (h : List.Forall₂ (PiecesOf ρ) bs pss) {p : Block} (hp : p ∈ pss.flatten) {i : Instr}
    (hi : i ∈ p.insts) : ∃ b ∈ bs, i ∈ b.insts := by
  induction h with
  | nil => cases hp
  | @cons b ps bs pss hps _ ih =>
    rw [List.flatten_cons, List.mem_append] at hp
    rcases hp with hp | hp
    · refine ⟨b, List.mem_cons_self, ?_⟩
      rw [← hps.insts]
      exact List.mem_flatMap.mpr ⟨p, hp, hi⟩
    · obtain ⟨b', hb', hmem⟩ := ih hp
      exact ⟨b', List.mem_cons_of_mem b hb', hmem⟩

/-- What holds in the loop over the instructions of a block with one call at most: nothing is cut. -/
structure WholeInv (before : List Block) (b : Block) (after : List Block) (rest : List Instr)
    (s : SplitState) : Prop where
  before_eq : s.before = before
  whole : s.whole rest = b
  after_eq : s.after = after
  calls : s.callCnt + rest.countP Instr.isCall ≤ 1
  direct : ∀ i ∈ rest, ¬ i.NullCallee

section Whole

variable {before after : List Block} {b : Block} {rest : List Instr} {s : SplitState}

theorem wholeInv_turn {inst : Instr} (h : WholeInv before b after (inst :: rest) s) :
    ∃ t, splitTurn s inst = some t ∧ WholeInv before b after rest t := by
  obtain ⟨hinst, hdirect⟩ := List.forall_mem_cons.mp h.direct
  have hcalls := h.calls
  cases inst with
  | other opcode operands res =>
    rw [List.countP_cons_of_neg (by simp [Instr.isCall])] at hcalls
    exact ⟨_, rfl, h.before_eq, (whole_advance ..).trans h.whole, h.after_eq, hcalls, hdirect⟩
  | call callee args res =>
    cases callee with
    | none => exact absurd trivial hinst
    | some callee =>
      rw [List.countP_cons_of_pos (by rfl)] at hcalls
      have hcnt : ¬ s.callCnt + 1 > 1 := by omega
      refine ⟨SplitState.advance { s with callCnt := s.callCnt + 1 } _,
        by rw [splitTurn]; simp only [if_neg hcnt], h.before_eq, (whole_advance ..).trans h.whole,
        h.after_eq, ?_, hdirect⟩
      show s.callCnt + 1 + rest.countP Instr.isCall ≤ 1
      omega

/-- A block with one call at most is passed over. -/
theorem splitBB_of_calls_le_one (done : List Block) (hcalls : b.calls ≤ 1)
    (hd : ∀ i ∈ b.insts, ¬ i.NullCallee) : splitBB ⟨done, b :: after⟩ = some ⟨done ++ [b], after⟩ := by
  have hstart : WholeInv done b after b.insts
      { before := done, bb := { b with insts := [] }, after := after } :=
    ⟨rfl, rfl, rfl, (Nat.zero_add _).trans_le hcalls, hd⟩
  obtain ⟨t, ht, hend⟩ := Loop.exists_forEach_eq_some (fun rest s => WholeInv done b after rest s)
    (fun _ _ _ => wholeInv_turn) hstart
  have hwhole : t.bb = b := by
    have h := hend.whole
    unfold SplitState.whole at h
    rw [List.append_nil] at h
    exact h
  unfold splitBB
  simp only [ht, Option.map_some, hend.before_eq, hend.after_eq, hwhole]

end Whole

/-- A function comes out as it is just if none of its blocks has two calls. -/
theorem splitFunction_eq_self_iff {F : Function} (hv : F.Verified) (hskip : F.name ∉ splitSkips)
    (hd : ∀ b ∈ F.blocks, ∀ i ∈ b.insts, ¬ i.NullCallee) :
    splitFunction F = some F ↔ ∀ b ∈ F.blocks, b.calls ≤ 1 := by
  constructor
  · intro hself
    obtain ⟨F', hF', hsplits⟩ := splitFunction_splits hv hskip hd
    obtain rfl := Option.some.inj (hself.symm.trans hF')
    exact hsplits.calls
  · intro hcalls
    have hstep : ∀ s : Cursor.State Block, s.done ++ s.rest = F.blocks → (!s.rest.isEmpty) = true →
        ∃ t, splitBB s = some t ∧ t.done ++ t.rest = F.blocks ∧ t.rest.length < s.rest.length := by
      rintro ⟨done, rest⟩ hs hmore
      cases rest with
      | nil => cases hmore
      | cons b after =>
        have hb : b ∈ F.blocks := hs ▸ List.mem_append_right _ List.mem_cons_self
        refine ⟨_, splitBB_of_calls_le_one done (hcalls b hb) (hd b hb), ?_, Nat.lt_succ_self _⟩
        rw [← hs, List.append_assoc]
        rfl
    obtain ⟨s, hrun, hsame, hend⟩ := Loop.exists_run_eq_done
      (fun s : Cursor.State Block => s.done ++ s.rest = F.blocks) (fun s => s.rest.length) hstep
      (s := ⟨[], F.blocks⟩) (List.nil_append F.blocks) (Nat.lt_succ_self F.blocks.length)
    have hnil : s.rest = [] := by simpa using hend
    rw [hnil, List.append_nil] at hsame
    unfold splitFunction
    rw [if_neg hskip, hrun]
    exact congrArg (fun blocks => some { F with blocks := blocks }) hsame

theorem SplitsInto.direct {F F' : Function} (h : SplitsInto F F')
    (hd : ∀ b ∈ F.blocks, ∀ i ∈ b.insts, ¬ i.NullCallee) :
    ∀ b ∈ F'.blocks, ∀ i ∈ b.insts, ¬ i.NullCallee := by
  obtain ⟨ρ, pss, hblocks, hpieces⟩ := h.pieces
  intro p hp i hi
  obtain ⟨b, hb, hmem⟩ := exists_block_of_pieces hpieces (hblocks ▸ hp) hi
  exact hd b hb i hmem

/-- **What the pass leaves alone.** A module comes out as it is exactly if no block of a processed
function has two calls; so a second run after a first one changes nothing. -/
theorem splitModule_eq_self_iff {M : IrModule} (hv : ∀ F ∈ M, F.Verified)
    (hd : ∀ F ∈ M, F.name ∉ splitSkips → ∀ b ∈ F.blocks, ∀ i ∈ b.insts, ¬ i.NullCallee) :
    (splitModule M = some M ↔ ∀ F ∈ M, F.name ∉ splitSkips → ∀ b ∈ F.blocks, b.calls ≤ 1) ∧
      ∃ M', splitModule M = some M' ∧ splitModule M' = some M' := by
  unfold splitModule
  rw [Loop.mapM_eq_self_iff]
  constructor
  · refine forall₂_congr fun F hF => ?_
    by_cases hskip : F.name ∈ splitSkips
    · exact iff_of_true (if_pos hskip) fun hn => absurd hskip hn
    · rw [splitFunction_eq_self_iff (hv F hF) hskip (hd F hF hskip)]
      exact ⟨fun h _ => h, fun h => h hskip⟩
  · obtain ⟨M', hM', hself⟩ := Loop.exists_mapM_forall (f := splitFunction)
      (P := fun F' => splitFunction F' = some F') (l := M) fun F hF => by
        obtain ⟨F', hF', hsplits⟩ := exists_splitFunction (hv F hF) (hd F hF)
        refine ⟨F', hF', ?_⟩
        split_ifs at hsplits with hskip
        · rw [hsplits]
          exact if_pos hskip
        · have hskip' : F'.name ∉ splitSkips := hsplits.name ▸ hskip
          rw [splitFunction_eq_self_iff hsplits.verified hskip' (hsplits.direct (hd F hF hskip))]
          exact hsplits.calls
    exact ⟨M', hM', Loop.mapM_eq_self_iff.mpr hself⟩

theorem splitModule_eq_self_iff_loop :
    (splitModule loopModule = some loopModule ↔
      ∀ F ∈ loopModule, F.name ∉ splitSkips → ∀ b ∈ F.blocks, b.calls ≤ 1) ∧
      ∃ M', splitModule loopModule = some M' ∧ splitModule M' = some M' :=
  splitModule_eq_self_iff (by decide) (by decide)

end MpuPasses
