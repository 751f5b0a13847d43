import Mathlib

/-!
# Cutting a list into blocks

Given a property of elements, a list falls into blocks that each end at the first element with the
property, and a rest without one. `IsCut` says what such blocks are, `blocksFrom` computes them with
the block that is still open as an accumulator; there is only one way to cut (`IsCut.unique`).
-/

namespace Cut

variable {α : Type*}

/-- The list is cut into the blocks and the rest. -/
structure IsCut (p : α → Prop) (l : List α) (blocks : List (List α)) (rest : List α) : Prop where
  parts : blocks.flatten ++ rest = l
  ends : ∀ b ∈ blocks, ∃ front t, b = front ++ [t] ∧ p t ∧ ∀ x ∈ front, ¬ p x
  rest_open : ∀ x ∈ rest, ¬ p x

/-- An element with the property ends a block. -/
theorem IsCut.exists_end {p : α → Prop} {l : List α} {blocks : List (List α)} {rest : List α}
    (h : IsCut p l blocks rest) {t : α} (ht : t ∈ l) (hp : p t) :
    ∃ front, front ++ [t] ∈ blocks := by
  rw [← h.parts] at ht
  rcases List.mem_append.mp ht with ht | ht
  · obtain ⟨b, hb, hmem⟩ := List.mem_flatten.mp ht
    obtain ⟨front, u, rfl, -, hfront⟩ := h.ends b hb
    rcases List.mem_append.mp hmem with hmem | hmem
    · exact absurd hp (hfront t hmem)
    · rw [List.mem_singleton.mp hmem]
      exact ⟨front, hb⟩
  · exact absurd hp (h.rest_open t ht)

/-- A block of the list lies in it. -/
theorem IsCut.isInfix {p : α → Prop} {l : List α} {blocks : List (List α)} {rest : List α}
    (h : IsCut p l blocks rest) {b : List α} (hb : b ∈ blocks) : b <:+: l :=
  (List.infix_of_mem_flatten hb).trans (h.parts ▸ (List.prefix_append _ _).isInfix)

theorem IsCut.isChain {p : α → Prop} {R : α → α → Prop} {l : List α} {blocks : List (List α)}
    {rest : List α} (h : IsCut p l blocks rest) (hl : l.IsChain R) {b : List α} (hb : b ∈ blocks) :
    b.IsChain R := by
  obtain ⟨front, back, hparts⟩ := h.isInfix hb
  rw [← hparts] at hl
  exact hl.left_of_append.right_of_append

/-- The blocks, when `cur` is already open. -/
def blocksFrom (p : α → Prop) [DecidablePred p] : List α → List α → List (List α)
  | _, [] => []
  | cur, x :: xs => if p x then (cur ++ [x]) :: blocksFrom p [] xs else blocksFrom p (cur ++ [x]) xs

/-- What is open at the end. -/
def restFrom (p : α → Prop) [DecidablePred p] : List α → List α → List α
  | cur, [] => cur
  | cur, x :: xs => if p x then restFrom p [] xs else restFrom p (cur ++ [x]) xs

variable {p : α → Prop} [DecidablePred p]

theorem blocksFrom_cons_of_pos {x : α} (hx : p x) (cur xs : List α) :
    blocksFrom p cur (x :: xs) = (cur ++ [x]) :: blocksFrom p [] xs := by
  rw [blocksFrom, if_pos hx]

theorem blocksFrom_cons_of_neg {x : α} (hx : ¬ p x) (cur xs : List α) :
    blocksFrom p cur (x :: xs) = blocksFrom p (cur ++ [x]) xs := by
  rw [blocksFrom, if_neg hx]

/-- The blocks that are computed cut the list. -/
theorem isCut_blocksFrom {cur : List α} (hcur : ∀ x ∈ cur, ¬ p x) (l : List α) :
    IsCut p (cur ++ l) (blocksFrom p cur l) (restFrom p cur l) := by
  induction l generalizing cur with
  | nil => exact ⟨by simp [blocksFrom, restFrom], nofun, hcur⟩
  | cons x xs ih =>
    by_cases hx : p x
    · have hnil : ∀ y ∈ ([] : List α), ¬ p y := by simp
      have hcut := ih hnil
      rw [blocksFrom_cons_of_pos hx, restFrom, if_pos hx]
      refine ⟨?_, ?_, hcut.rest_open⟩
      · rw [List.flatten_cons, List.append_assoc, hcut.parts]
        simp
      · exact List.forall_mem_cons.mpr ⟨⟨cur, x, rfl, hx, hcur⟩, hcut.ends⟩
    · have hopen : ∀ y ∈ cur ++ [x], ¬ p y := by
        intro y hy
        rcases List.mem_append.mp hy with hy | hy
        · exact hcur y hy
        · exact List.mem_singleton.mp hy ▸ hx
      rw [blocksFrom_cons_of_neg hx, restFrom, if_neg hx, List.append_cons]
      exact ih hopen

variable (p) in
theorem isCut_blocksFrom_nil (l : List α) : IsCut p l (blocksFrom p [] l) (restFrom p [] l) := by
  have hnil : ∀ x ∈ ([] : List α), ¬ p x := by simp
  exact isCut_blocksFrom hnil l

theorem blocksFrom_append_end {front : List α} (hfront : ∀ x ∈ front, ¬ p x) {t : α} (ht : p t)
    (cur xs : List α) :
    blocksFrom p cur (front ++ t :: xs) = (cur ++ front ++ [t]) :: blocksFrom p [] xs := by
  induction front generalizing cur with
  | nil => rw [List.nil_append, List.append_nil, blocksFrom_cons_of_pos ht]
  | cons x front ih =>
    obtain ⟨hx, hfront⟩ := List.forall_mem_cons.mp hfront
    rw [List.cons_append, blocksFrom_cons_of_neg hx, ih hfront]
    simp

theorem blocksFrom_append_open {m : List α} (hm : ∀ x ∈ m, ¬ p x) (cur l : List α) :
    blocksFrom p cur (l ++ m) = blocksFrom p cur l := by
  induction l generalizing cur with
  | nil =>
    rw [List.nil_append]
    induction m generalizing cur with
    | nil => rfl
    | cons x m ih =>
      obtain ⟨hx, hm⟩ := List.forall_mem_cons.mp hm
      rw [blocksFrom_cons_of_neg hx]
      exact ih hm _
  | cons x l ih =>
    rw [List.cons_append]
    by_cases hx : p x
    · rw [blocksFrom_cons_of_pos hx, blocksFrom_cons_of_pos hx, ih]
    · rw [blocksFrom_cons_of_neg hx, blocksFrom_cons_of_neg hx, ih]

/-- **Only one cut.** -/
theorem IsCut.unique {l : List α} {blocks : List (List α)} {rest : List α}
    (h : IsCut p l blocks rest) : blocks = blocksFrom p [] l := by
  obtain ⟨rfl, hends, hrest⟩ := h
  induction blocks with
  | nil => exact (blocksFrom_append_open hrest [] []).symm
  | cons b blocks ih =>
    obtain ⟨⟨front, t, rfl, ht, hfront⟩, hends'⟩ := List.forall_mem_cons.mp hends
    rw [List.flatten_cons, List.append_assoc, List.append_assoc, List.singleton_append,
      blocksFrom_append_end hfront ht, ← ih hends', List.nil_append]

theorem length_blocksFrom (cur l : List α) : (blocksFrom p cur l).length = l.countP (p ·) := by
  induction l generalizing cur with
  | nil => rfl
  | cons x l ih =>
    by_cases hx : p x
    · rw [blocksFrom_cons_of_pos hx, List.length_cons, ih, List.countP_cons_of_pos (by simpa using hx)]
    · rw [blocksFrom_cons_of_neg hx, ih, List.countP_cons_of_neg (by simpa using hx)]

/-- Elements without the property at the end make no difference to the blocks. -/
theorem blocksFrom_take {l : List α} {k : ℕ} (h : ∀ x ∈ l.drop k, ¬ p x) :
    blocksFrom p [] (l.take k) = blocksFrom p [] l := by
  conv_rhs => rw [← List.take_append_drop k l]
  exact (blocksFrom_append_open h [] _).symm

/-- As many blocks of a part as of the whole: nothing behind the part ends a block. -/
theorem forall_mem_drop_of_length_eq {l : List α} {k : ℕ}
    (h : (blocksFrom p [] (l.take k)).length = (blocksFrom p [] l).length) :
    ∀ x ∈ l.drop k, ¬ p x := by
  have hcount : l.countP (p ·) = (l.take k).countP (p ·) + (l.drop k).countP (p ·) := by
    rw [← List.countP_append, List.take_append_drop]
  rw [length_blocksFrom, length_blocksFrom] at h
  have hzero : (l.drop k).countP (p ·) = 0 := by omega
  simpa [List.countP_eq_zero] using hzero

/-- Behind the first element with `q`, the last one apart, no element has `r`. -/
theorem forall_mem_drop_findIdx_iff {q : α → Bool} {r : α → Prop} (l : List α) :
    (∀ x ∈ l.drop (l.dropLast.findIdx q + 1), ¬ r x) ↔
      l.Pairwise fun y x => r x → q y = false := by
  induction l with
  | nil => simp
  | cons y l ih =>
    cases l with
    | nil => simp
    | cons z l =>
      rw [List.dropLast_cons_cons, List.findIdx_cons, List.pairwise_cons, List.drop_succ_cons]
      cases hq : q y with
      | true =>
        rw [cond_true, List.drop_zero]
        constructor
        · intro h
          refine ⟨fun x hx hr => absurd hr (h x hx), ?_⟩
          exact List.pairwise_of_forall_mem_list fun _ _ x hx hr => absurd hr (h x hx)
        · rintro ⟨h, -⟩ x hx hr
          exact absurd (h x hx hr) (by simp)
      | false =>
        rw [cond_false, ih]
        simp

end Cut
