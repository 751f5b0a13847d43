import MpuPasses.Traces

/-!
# Splitting a block

`splitBasicBlock(I, "", true)` moves what is in front of an instruction to a new block, places it
before the block, lets the predecessors branch to it and ends it with a branch to the rest.
`traces_splitAt` says that the function does the same afterwards.
-/

namespace MpuPasses

/-! ## The operation -/

def Term.mapSuccs (ρ : ℕ → ℕ) : Term → Term
  | ret operands => ret operands
  | branch operands succs => branch operands (succs.map ρ)

/-- Where a branch goes after `replaceSuccessorWith(old, new)`. -/
def redirect (old new : ℕ) (l : ℕ) : ℕ := if l = old then new else l

/-- A block whose branches go elsewhere. -/
def Block.mapSuccs (ρ : ℕ → ℕ) (b : Block) : Block := { b with term := b.term.mapSuccs ρ }

/-- The new block. -/
def Block.frontPiece (b : Block) (new : ℕ) (front : List Instr) : Block :=
  { label := new, phis := b.phis, insts := front, term := .branch [] [b.label] }

/-- What is left of the block. -/
def Block.backPiece (b : Block) (new : ℕ) (back : List Instr) : Block :=
  { label := b.label, phis := [], insts := back, term := b.term.mapSuccs (redirect b.label new) }

/-- The blocks of a function after the split of one of them. -/
def splitAt (pre : List Block) (b : Block) (post : List Block) (new : ℕ) (front back : List Instr) :
    List Block :=
  pre.map (Block.mapSuccs (redirect b.label new)) ++
    b.frontPiece new front :: b.backPiece new back ::
      post.map (Block.mapSuccs (redirect b.label new))

@[simp] theorem redirect_self (old new : ℕ) : redirect old new old = new := if_pos rfl

theorem redirect_of_ne {old new l : ℕ} (h : l ≠ old) : redirect old new l = l := if_neg h

/-- Nothing leads to the old label any more. -/
theorem redirect_ne_old {old new : ℕ} (h : new ≠ old) (l : ℕ) : redirect old new l ≠ old := by
  unfold redirect
  split_ifs with hl
  · exact h
  · exact hl

theorem redirect_inj {old new l m : ℕ} (hl : l ≠ new) (hm : m ≠ new)
    (h : redirect old new l = redirect old new m) : l = m := by
  unfold redirect at h
  split_ifs at h with h1 h2 h2
  · rw [h1, h2]
  · exact absurd h.symm hm
  · exact absurd h hl
  · exact h

theorem Term.succs_mapSuccs (ρ : ℕ → ℕ) (t : Term) : (t.mapSuccs ρ).succs = t.succs.map ρ := by
  cases t <;> rfl

theorem Term.mapSuccs_mapSuccs (ρ σ : ℕ → ℕ) (t : Term) :
    (t.mapSuccs ρ).mapSuccs σ = t.mapSuccs (σ ∘ ρ) := by
  cases t with
  | ret operands => rfl
  | branch operands succs => exact congrArg (branch operands) List.map_map

theorem Block.mapSuccs_mapSuccs (ρ σ : ℕ → ℕ) (b : Block) :
    (b.mapSuccs ρ).mapSuccs σ = b.mapSuccs (σ ∘ ρ) := by
  unfold Block.mapSuccs
  exact congrArg (fun t => { b with term := t }) (Term.mapSuccs_mapSuccs ρ σ b.term)

theorem Term.mapSuccs_eq_ret {ρ : ℕ → ℕ} {t : Term} {operands : List Val}
    (h : t.mapSuccs ρ = .ret operands) : t = .ret operands := by
  cases t with
  | ret _ => exact h
  | branch _ _ => cases h

theorem Term.mapSuccs_eq_branch {ρ : ℕ → ℕ} {t : Term} {operands : List Val} {succs : List ℕ}
    (h : t.mapSuccs ρ = .branch operands succs) :
    ∃ succs', t = .branch operands succs' ∧ succs = succs'.map ρ := by
  cases t with
  | ret _ => cases h
  | branch _ succs' =>
    cases h
    exact ⟨succs', rfl, rfl⟩

theorem Term.mapSuccs_of_ret {ρ : ℕ → ℕ} {t : Term} {operands : List Val} (h : t = .ret operands) :
    t.mapSuccs ρ = .ret operands := by
  rw [h]
  rfl

theorem Term.mapSuccs_of_branch {ρ : ℕ → ℕ} {t : Term} {operands : List Val} {succs : List ℕ}
    (h : t = .branch operands succs) : t.mapSuccs ρ = .branch operands (succs.map ρ) := by
  rw [h]
  rfl

theorem branchActions_map (operands : List Val) (succs : List ℕ) (ρ : ℕ → ℕ) (choice : ℕ) :
    branchActions operands (succs.map ρ) choice = branchActions operands succs choice := by
  unfold branchActions
  rw [List.length_map]

/-- The function after a split. -/
def Function.split (F : Function) (pre : List Block) (b : Block) (post : List Block) (new : ℕ)
    (front back : List Instr) : Function :=
  { F with blocks := splitAt pre b post new front back }

/-- Where control goes instead of a block. -/
def splitEntry (b : Block) (new : ℕ) (front : List Instr) (c : Block) : Block :=
  if c.label = b.label then b.frontPiece new front else c.mapSuccs (redirect b.label new)

section Entry

variable {b : Block} {new : ℕ} {front back : List Instr}

theorem splitEntry_self : splitEntry b new front b = b.frontPiece new front := if_pos rfl

theorem splitEntry_of_ne {c : Block} (h : c.label ≠ b.label) :
    splitEntry b new front c = c.mapSuccs (redirect b.label new) := if_neg h

theorem splitEntry_label (c : Block) :
    (splitEntry b new front c).label = redirect b.label new c.label := by
  by_cases h : c.label = b.label
  · unfold splitEntry
    rw [if_pos h, h, redirect_self]
    rfl
  · rw [splitEntry_of_ne h, redirect_of_ne h]
    rfl

/-- The actions of a block are those of its pieces. -/
theorem actions_pieces (new : ℕ) (hinsts : b.insts = front ++ back) (pred q : Option ℕ) :
    b.actions pred = (b.frontPiece new front).actions pred ++ (b.backPiece new back).actions q := by
  unfold Block.actions Block.frontPiece Block.backPiece
  rw [hinsts, List.map_append, if_pos rfl, List.nil_append, List.append_assoc]

end Entry

/-! ## One split -/

theorem new_ne_label {F : Function} {new : ℕ} (hnew : new ∉ F.blocks.map Block.label) {c : Block}
    (hc : c ∈ F.blocks) : new ≠ c.label := fun h => hnew (h ▸ List.mem_map_of_mem hc)

section Split

variable {F : Function} {pre post : List Block} {b : Block} {new : ℕ} {front back : List Instr}
  (hblocks : F.blocks = pre ++ b :: post) (hv : F.Verified)

include hblocks hv

theorem label_ne_of_mem_pre : ∀ c ∈ pre, c.label ≠ b.label := by
  have hnodup := hv.labels_nodup
  rw [hblocks, List.map_append, List.map_cons] at hnodup
  intro c hc
  exact (List.nodup_append.mp hnodup).2.2 _ (List.mem_map_of_mem hc) _ List.mem_cons_self

theorem label_ne_of_mem_post : ∀ c ∈ post, c.label ≠ b.label := by
  have hnodup := hv.labels_nodup
  rw [hblocks, List.map_append, List.map_cons] at hnodup
  intro c hc heq
  have hcons := (List.nodup_append.mp hnodup).2.1
  exact (List.nodup_cons.mp hcons).1 (heq ▸ List.mem_map_of_mem hc)

theorem splitAt_eq_map : splitAt pre b post new front back =
    pre.map (splitEntry b new front) ++ splitEntry b new front b :: b.backPiece new back ::
      post.map (splitEntry b new front) := by
  have hpre : pre.map (splitEntry b new front) = pre.map (Block.mapSuccs (redirect b.label new)) :=
    List.map_congr_left fun c hc => splitEntry_of_ne (label_ne_of_mem_pre hblocks hv c hc)
  have hpost : post.map (splitEntry b new front) = post.map (Block.mapSuccs (redirect b.label new)) :=
    List.map_congr_left fun c hc => splitEntry_of_ne (label_ne_of_mem_post hblocks hv c hc)
  rw [hpre, hpost, splitEntry_self]
  rfl

/-- The blocks after the split. -/
theorem mem_splitAt {c' : Block} : c' ∈ splitAt pre b post new front back ↔
    (∃ c ∈ F.blocks, c' = splitEntry b new front c) ∨ c' = b.backPiece new back := by
  rw [splitAt_eq_map hblocks hv, hblocks]
  simp only [List.mem_append, List.mem_cons, List.mem_map, @eq_comm _ _ c']
  constructor
  · rintro (⟨c, hc, h⟩ | h | h | ⟨c, hc, h⟩)
    · exact .inl ⟨c, .inl hc, h⟩
    · exact .inl ⟨b, .inr (.inl rfl), h⟩
    · exact .inr h
    · exact .inl ⟨c, .inr (.inr hc), h⟩
  · rintro (⟨c, hc | rfl | hc, h⟩ | h)
    · exact .inl ⟨c, hc, h⟩
    · exact .inr (.inl h)
    · exact .inr (.inr (.inr ⟨c, hc, h⟩))
    · exact .inr (.inr (.inl h))

theorem head?_splitAt : (splitAt pre b post new front back).head? =
    F.blocks.head?.map (splitEntry b new front) := by
  rw [splitAt_eq_map hblocks hv, hblocks]
  cases pre <;> rfl

omit hv in
theorem perm_label_splitAt : ((splitAt pre b post new front back).map Block.label).Perm
    (new :: F.blocks.map Block.label) := by
  have hmap : (splitAt pre b post new front back).map Block.label =
      pre.map Block.label ++ new :: b.label :: post.map Block.label := by
    unfold splitAt
    rw [List.map_append, List.map_cons, List.map_cons, List.map_map, List.map_map]
    rfl
  rw [hmap, hblocks, List.map_append, List.map_cons]
  exact List.perm_middle

/-- Where the blocks lead after the split: the new one to the rest, the others as before. -/
theorem succ_of_mem_splitAt {c' : Block} (hc' : c' ∈ splitAt pre b post new front back) {l' : ℕ}
    (hl' : l' ∈ c'.term.succs) :
    l' = b.label ∨ ∃ c ∈ F.blocks, ∃ l ∈ c.term.succs, redirect b.label new l = l' := by
  have hmapped : ∀ c ∈ F.blocks, l' ∈ (c.term.mapSuccs (redirect b.label new)).succs →
      ∃ c ∈ F.blocks, ∃ l ∈ c.term.succs, redirect b.label new l = l' := by
    intro c hc hl'
    rw [Term.succs_mapSuccs] at hl'
    exact ⟨c, hc, List.mem_map.mp hl'⟩
  rcases (mem_splitAt hblocks hv).mp hc' with ⟨c, hc, rfl⟩ | rfl
  · by_cases h : c.label = b.label
    · unfold splitEntry at hl'
      rw [if_pos h] at hl'
      exact .inl (List.mem_singleton.mp hl')
    · rw [splitEntry_of_ne h] at hl'
      exact .inr (hmapped c hc hl')
  · exact .inr (hmapped b (by rw [hblocks]; simp) hl')

/-- Control that enters the new block goes on to the rest. -/
theorem exec_frontPiece {pred : Option ℕ} {t : List Action}
    (h : (F.split pre b post new front back).Exec (some new) (b.backPiece new back) t) :
    (F.split pre b post new front back).Exec pred (b.frontPiece new front)
      ((b.frontPiece new front).actions pred ++ t) := by
  have hmem : b.backPiece new back ∈ (F.split pre b post new front back).blocks :=
    (mem_splitAt hblocks hv).mpr (.inr rfl)
  have hgo := @Function.Exec.go (F.split pre b post new front back) pred (b.frontPiece new front)
    (b.backPiece new back) [] [b.label] 0 t rfl rfl hmem h
  rw [show branchActions [] [b.label] 0 = [] from rfl, List.append_nil] at hgo
  exact hgo

/-- A branch to a block goes to where control goes instead of it. -/
theorem exec_go_entry {pred : Option ℕ} {c' d : Block} {operands : List Val} {succs : List ℕ}
    {choice : ℕ} {t : List Action}
    (hterm : c'.term = .branch operands (succs.map (redirect b.label new)))
    (hsucc : succs[choice]? = some d.label) (hd : d ∈ F.blocks)
    (h : (F.split pre b post new front back).Exec (some c'.label) (splitEntry b new front d) t) :
    (F.split pre b post new front back).Exec pred c'
      (c'.actions pred ++ branchActions operands succs choice ++ t) := by
  have hsucc' : (succs.map (redirect b.label new))[choice]? =
      some (splitEntry b new front d).label := by
    rw [List.getElem?_map, hsucc, splitEntry_label]
    rfl
  have hd' : splitEntry b new front d ∈ (F.split pre b post new front back).blocks :=
    (mem_splitAt hblocks hv).mpr (.inl ⟨d, hd, rfl⟩)
  have hgo := @Function.Exec.go _ pred _ _ _ _ _ _ hterm hsucc' hd' h
  rw [branchActions_map] at hgo
  exact hgo

variable (hnew : new ∉ F.blocks.map Block.label)

include hnew

theorem verified_split : (F.split pre b post new front back).Verified := by
  have hb : b ∈ F.blocks := by rw [hblocks]; simp
  have hlabels : ((splitAt pre b post new front back).map Block.label).Perm
      (new :: F.blocks.map Block.label) := perm_label_splitAt hblocks
  constructor
  · show ((splitAt pre b post new front back).map Block.label).Nodup
    rw [hlabels.nodup_iff]
    exact List.nodup_cons.mpr ⟨hnew, hv.labels_nodup⟩
  · intro c' hc' l' hl'
    show l' ∈ (splitAt pre b post new front back).map Block.label
    rw [hlabels.mem_iff]
    rcases succ_of_mem_splitAt hblocks hv hc' hl' with rfl | ⟨c, hc, l, hl, rfl⟩
    · exact List.mem_cons_of_mem _ (List.mem_map_of_mem hb)
    · unfold redirect
      split_ifs
      · exact List.mem_cons_self
      · exact List.mem_cons_of_mem _ (hv.succs_mem c hc l hl)
  · intro c' hc' l' hl' hhead
    have hentry : (F.split pre b post new front back).blocks.head? =
        F.blocks.head?.map (splitEntry b new front) := head?_splitAt hblocks hv
    rw [hentry, Option.map_map] at hhead
    obtain ⟨e, he, heq⟩ := Option.map_eq_some_iff.mp hhead
    have heq' : redirect b.label new e.label = l' := (splitEntry_label e).symm.trans heq
    rcases succ_of_mem_splitAt hblocks hv hc' hl' with rfl | ⟨c, hc, l, hl, hll'⟩
    · exact redirect_ne_old (new_ne_label hnew hb) _ heq'
    · -- what led to the entry before leads to it now
      obtain ⟨d, hd, rfl⟩ := List.mem_map.mp (hv.succs_mem c hc l hl)
      have hsame := redirect_inj (new_ne_label hnew hd).symm
        (new_ne_label hnew (List.mem_of_mem_head? he)).symm (hll'.trans heq'.symm)
      apply hv.entry_no_pred c hc d.label hl
      rw [he, hsame]
      rfl

/-- A branch that was redirected leads where it led before. -/
theorem exists_succ_of_split {operands : List Val} {succs : List ℕ} {choice : ℕ} {d' : Block}
    {c : Block} (hc : c ∈ F.blocks)
    (hterm : c.term.mapSuccs (redirect b.label new) = .branch operands succs)
    (hsucc : succs[choice]? = some d'.label)
    (hd' : d' ∈ (F.split pre b post new front back).blocks) :
    ∃ succs' d, c.term = .branch operands succs' ∧ succs = succs'.map (redirect b.label new) ∧
      succs'[choice]? = some d.label ∧ d ∈ F.blocks ∧ d' = splitEntry b new front d := by
  obtain ⟨succs', hterm', rfl⟩ := Term.mapSuccs_eq_branch hterm
  rw [List.getElem?_map] at hsucc
  obtain ⟨l, hl, hredirect⟩ := Option.map_eq_some_iff.mp hsucc
  have hlmem : l ∈ c.term.succs := by
    rw [hterm']
    exact List.mem_of_getElem? hl
  obtain ⟨d, hd, rfl⟩ := List.mem_map.mp (hv.succs_mem c hc l hlmem)
  refine ⟨succs', d, hterm', rfl, hl, hd, ?_⟩
  have hentry : splitEntry b new front d ∈ (F.split pre b post new front back).blocks :=
    (mem_splitAt hblocks hv).mpr (.inl ⟨d, hd, rfl⟩)
  exact (verified_split hblocks hv hnew).eq_of_label hd' hentry
    (hredirect.symm.trans (splitEntry_label d).symm)

/-- The new block leads to the rest only. -/
theorem eq_backPiece_of_frontPiece {d' : Block} {operands : List Val} {succs : List ℕ} {choice : ℕ}
    (hterm : (b.frontPiece new front).term = .branch operands succs)
    (hsucc : succs[choice]? = some d'.label)
    (hd' : d' ∈ (F.split pre b post new front back).blocks) :
    d' = b.backPiece new back ∧ branchActions operands succs choice = [] := by
  cases hterm
  refine ⟨?_, rfl⟩
  apply (verified_split hblocks hv hnew).eq_of_label hd' ((mem_splitAt hblocks hv).mpr (.inr rfl))
  cases choice with
  | zero => exact (Option.some.inj hsucc).symm
  | succ n => cases hsucc

variable (hinsts : b.insts = front ++ back)

include hinsts

omit hnew in
/-- What the function did it still does. -/
theorem exec_split {pred : Option ℕ} {c : Block} {t : List Action} (h : F.Exec pred c t)
    (hc : c ∈ F.blocks) : (F.split pre b post new front back).Exec pred (splitEntry b new front c) t := by
  have hb : b ∈ F.blocks := by rw [hblocks]; simp
  induction h with
  | @cut pred c t h =>
    by_cases hl : c.label = b.label
    · obtain rfl := hv.eq_of_label hc hb hl
      rw [splitEntry_self]
      rw [actions_pieces new hinsts pred (some new)] at h
      obtain ⟨u, hu⟩ := h
      rcases List.append_eq_append_iff.mp hu with ⟨v, hfront, -⟩ | ⟨t', rfl, hback⟩
      · exact .cut ⟨v, hfront.symm⟩
      · exact exec_frontPiece hblocks hv (.cut ⟨u, hback.symm⟩)
    · rw [splitEntry_of_ne hl]
      exact .cut h
  | @ret pred c operands h =>
    by_cases hl : c.label = b.label
    · obtain rfl := hv.eq_of_label hc hb hl
      rw [splitEntry_self, actions_pieces new hinsts pred (some new), List.append_assoc]
      exact exec_frontPiece hblocks hv (.ret (Term.mapSuccs_of_ret h))
    · rw [splitEntry_of_ne hl]
      exact .ret (b := c.mapSuccs _) (Term.mapSuccs_of_ret h)
  | @go pred c d operands succs choice t hterm hsucc hd _ ih =>
    by_cases hl : c.label = b.label
    · obtain rfl := hv.eq_of_label hc hb hl
      rw [splitEntry_self, actions_pieces new hinsts pred (some new), List.append_assoc, List.append_assoc]
      apply exec_frontPiece hblocks hv
      have hterm' : (c.backPiece new back).term = .branch operands (succs.map (redirect c.label new)) :=
        Term.mapSuccs_of_branch hterm
      rw [← List.append_assoc]
      exact exec_go_entry hblocks hv hterm' hsucc hd (ih hd)
    · rw [splitEntry_of_ne hl]
      have hterm' : (c.mapSuccs (redirect b.label new)).term =
          .branch operands (succs.map (redirect b.label new)) := Term.mapSuccs_of_branch hterm
      exact exec_go_entry hblocks hv hterm' hsucc hd (ih hd)

/-- What the function does after the split it did before: an execution from the entry of a block is
one of the block, and one from the rest of the split block is one of it behind the front. -/
theorem exec_of_split {pred : Option ℕ} {c' : Block} {t : List Action}
    (h : (F.split pre b post new front back).Exec pred c' t) :
    (∀ c ∈ F.blocks, c' = splitEntry b new front c → F.Exec pred c t) ∧
      (c' = b.backPiece new back →
        ∀ q, F.Exec q b ((b.frontPiece new front).actions q ++ t)) := by
  have hb : b ∈ F.blocks := by rw [hblocks]; simp
  induction h with
  | @cut pred c' t h =>
    refine ⟨fun c hc heq => ?_, fun heq q => ?_⟩
    · subst heq
      by_cases hl : c.label = b.label
      · obtain rfl := hv.eq_of_label hc hb hl
        rw [splitEntry_self] at h
        refine .cut (h.trans ?_)
        rw [actions_pieces new hinsts pred none]
        exact List.prefix_append _ _
      · rw [splitEntry_of_ne hl] at h
        exact .cut h
    · subst heq
      refine .cut ?_
      rw [actions_pieces new hinsts q pred]
      exact (List.prefix_append_right_inj _).mpr h
  | @ret pred c' operands h =>
    refine ⟨fun c hc heq => ?_, fun heq q => ?_⟩
    · subst heq
      by_cases hl : c.label = b.label
      · obtain rfl := hv.eq_of_label hc hb hl
        rw [splitEntry_self] at h
        cases h
      · rw [splitEntry_of_ne hl] at h ⊢
        exact .ret (Term.mapSuccs_eq_ret h)
    · subst heq
      rw [← List.append_assoc, ← actions_pieces new hinsts q pred]
      exact .ret (Term.mapSuccs_eq_ret h)
  | @go pred c' d' operands succs choice t hterm hsucc hd' _ ih =>
    refine ⟨fun c hc heq => ?_, fun heq q => ?_⟩
    · subst heq
      by_cases hl : c.label = b.label
      · -- from the new block control goes on to the rest
        obtain rfl := hv.eq_of_label hc hb hl
        rw [splitEntry_self] at hterm ⊢
        obtain ⟨hd, hnone⟩ := eq_backPiece_of_frontPiece hblocks hv hnew hterm hsucc hd'
        rw [hnone, List.append_nil]
        exact ih.2 hd pred
      · rw [splitEntry_of_ne hl] at hterm ih ⊢
        obtain ⟨succs', d, hterm', rfl, hsucc', hd, heq⟩ :=
          exists_succ_of_split hblocks hv hnew hc hterm hsucc hd'
        rw [branchActions_map]
        refine .go hterm' hsucc' hd (ih.1 d hd heq)
    · subst heq
      obtain ⟨succs', d, hterm', rfl, hsucc', hd, heq⟩ :=
        exists_succ_of_split hblocks hv hnew hb hterm hsucc hd'
      have hgo := @Function.Exec.go _ q _ _ _ _ _ _ hterm' hsucc' hd (ih.1 d hd heq)
      rw [branchActions_map, ← List.append_assoc, ← List.append_assoc,
        ← actions_pieces new hinsts q pred]
      exact hgo

/-- **The split function does the same.** -/
theorem traces_split : (F.split pre b post new front back).Traces = F.Traces := by
  ext t
  constructor
  · rintro ⟨e', he', h⟩
    have hhead : (splitAt pre b post new front back).head? =
        F.blocks.head?.map (splitEntry b new front) := head?_splitAt hblocks hv
    obtain ⟨e, he, rfl⟩ := Option.map_eq_some_iff.mp (hhead.symm.trans he')
    exact ⟨e, he, (exec_of_split hblocks hv hnew hinsts h).1 e (List.mem_of_mem_head? he) rfl⟩
  · rintro ⟨e, he, h⟩
    refine ⟨splitEntry b new front e, ?_, ?_⟩
    · refine (head?_splitAt hblocks hv).trans ?_
      rw [he]
      rfl
    · exact exec_split hblocks hv hinsts h (List.mem_of_mem_head? he)

end Split

end MpuPasses
