import Mathlib

/-!
# Blocks packed end to end, and blocks rounded up to alignments

`starts b sizes` lays blocks of the given sizes end to end from `b`; `alignedStarts b l` lets every
block take its own length and then rounds the address up to the block's alignment. When every size
divides the ones before it, all blocks of the packing are aligned exactly if the first one is
(`forall₂_dvd_starts_iff`), and the two walks agree exactly under the same condition
(`alignedStarts_eq_starts_iff`). `Tiles lo l hi` says of blocks with addresses that they follow one
another from `lo` to `hi`; blocks that are not negative then cover the range, each address once
(`Tiles.existsUnique`).
-/

namespace Packing

/-- The start of every block, blocks of the given sizes following one another from `b`. -/
def starts : ℕ → List ℕ → List ℕ
  | _, [] => []
  | b, s :: ss => b :: starts (b + s) ss

@[simp] theorem starts_nil (b : ℕ) : starts b [] = [] := rfl

@[simp] theorem starts_cons (b s : ℕ) (ss : List ℕ) :
    starts b (s :: ss) = b :: starts (b + s) ss := rfl

@[simp] theorem length_starts (b : ℕ) (ss : List ℕ) : (starts b ss).length = ss.length := by
  induction ss generalizing b with
  | nil => rfl
  | cons s ss ih => rw [starts_cons, List.length_cons, ih, List.length_cons]

/-- No block starts before the base. -/
theorem le_of_mem_starts {b a : ℕ} {ss : List ℕ} (h : a ∈ starts b ss) : b ≤ a := by
  induction ss generalizing b with
  | nil => cases h
  | cons s ss ih =>
    rcases List.mem_cons.mp h with rfl | h
    · exact le_rfl
    · exact (Nat.le_add_right b s).trans (ih h)

/-! ## Alignment of a packing -/

theorem forall₂_dvd_starts {b : ℕ} {ss : List ℕ} (hss : ss.Pairwise fun x y => y ∣ x)
    (hb : ∀ s ∈ ss, s ∣ b) : List.Forall₂ (· ∣ ·) ss (starts b ss) := by
  induction ss generalizing b with
  | nil => exact .nil
  | cons s ss ih =>
    obtain ⟨hs, hss⟩ := List.pairwise_cons.mp hss
    refine .cons (hb s List.mem_cons_self) (ih hss fun x hx => ?_)
    exact dvd_add (hb x (List.mem_cons_of_mem s hx)) (hs x hx)

/-- Descending blocks are all aligned exactly if the first one is. -/
theorem forall₂_dvd_starts_iff {b s : ℕ} {ss : List ℕ}
    (h : (s :: ss).Pairwise fun x y => y ∣ x) :
    List.Forall₂ (· ∣ ·) (s :: ss) (starts b (s :: ss)) ↔ s ∣ b := by
  constructor
  · intro hf
    rw [starts_cons] at hf
    exact (List.forall₂_cons.mp hf).1
  · intro hb
    refine forall₂_dvd_starts h fun x hx => ?_
    rcases List.mem_cons.mp hx with rfl | hx
    · exact hb
    · exact ((List.pairwise_cons.mp h).1 x hx).trans hb

/-! ## Rounding up -/

/-- The least multiple of `a` from `n` on. -/
def alignUp (n a : ℕ) : ℕ := (n + a - 1) / a * a

theorem dvd_alignUp (n a : ℕ) : a ∣ alignUp n a := Dvd.intro_left _ rfl

theorem le_alignUp {a : ℕ} (ha : 0 < a) (n : ℕ) : n ≤ alignUp n a := by
  have h := Nat.div_add_mod (n + a - 1) a
  have hlt := Nat.mod_lt (n + a - 1) ha
  unfold alignUp
  rw [Nat.mul_comm]
  omega

theorem alignUp_lt {a : ℕ} (ha : 0 < a) (n : ℕ) : alignUp n a < n + a := by
  have h := Nat.div_mul_le_self (n + a - 1) a
  unfold alignUp
  omega

theorem alignUp_add_eq {b s a : ℕ} (hb : a ∣ b) (hs : 0 < s) (hsa : s ≤ a) :
    alignUp (b + s) a = b + a := by
  have ha : 0 < a := hs.trans_le hsa
  obtain ⟨k, rfl⟩ := hb
  obtain ⟨j, hj⟩ := dvd_alignUp (a * k + s) a
  have hlo := le_alignUp ha (a * k + s)
  have hhi := alignUp_lt ha (a * k + s)
  rw [hj] at hlo hhi ⊢
  have h1 : k < j := by
    by_contra h
    have : a * j ≤ a * k := Nat.mul_le_mul_left a (by omega)
    omega
  have h2 : j < k + 2 := by
    by_contra h
    have : a * (k + 2) ≤ a * j := Nat.mul_le_mul_left a (by omega)
    rw [Nat.mul_add] at this
    omega
  obtain rfl : j = k + 1 := by omega
  rw [Nat.mul_add, Nat.mul_one]

/-- The start of every block when each block takes its length (first component) and the address
is then rounded up to its alignment (second component). -/
def alignedStarts : ℕ → List (ℕ × ℕ) → List ℕ
  | _, [] => []
  | b, (s, a) :: l => b :: alignedStarts (alignUp (b + s) a) l

@[simp] theorem length_alignedStarts (b : ℕ) (l : List (ℕ × ℕ)) :
    (alignedStarts b l).length = l.length := by
  induction l generalizing b with
  | nil => rfl
  | cons p l ih => rw [alignedStarts, List.length_cons, ih, List.length_cons]

theorem alignedStarts_eq_starts {b : ℕ} {l : List (ℕ × ℕ)}
    (hl : (l.map Prod.snd).Pairwise fun x y => y ∣ x) (hfit : ∀ p ∈ l, 0 < p.1 ∧ p.1 ≤ p.2)
    (hb : ∀ p ∈ l, p.2 ∣ b) : alignedStarts b l = starts b (l.map Prod.snd) := by
  induction l generalizing b with
  | nil => rfl
  | cons p l ih =>
    obtain ⟨s, a⟩ := p
    obtain ⟨ha, hl⟩ := List.pairwise_cons.mp hl
    obtain ⟨hs, hsa⟩ := hfit (s, a) List.mem_cons_self
    have hab := hb (s, a) List.mem_cons_self
    rw [alignedStarts, List.map_cons, starts_cons, alignUp_add_eq hab hs hsa,
      ih hl (fun p hp => hfit p (List.mem_cons_of_mem _ hp)) fun p hp => ?_]
    exact dvd_add (hb p (List.mem_cons_of_mem _ hp)) (ha p.2 (List.mem_map_of_mem hp))

/-- The two walks agree exactly if there is nothing after the first block or the base is aligned
to the first block. -/
theorem alignedStarts_eq_starts_iff {b s a : ℕ} {l : List (ℕ × ℕ)}
    (hl : (((s, a) :: l).map Prod.snd).Pairwise fun x y => y ∣ x)
    (hfit : ∀ p ∈ (s, a) :: l, 0 < p.1 ∧ p.1 ≤ p.2) :
    alignedStarts b ((s, a) :: l) = starts b (((s, a) :: l).map Prod.snd) ↔ l = [] ∨ a ∣ b := by
  constructor
  · intro h
    cases l with
    | nil => exact .inl rfl
    | cons q l =>
      obtain ⟨s', a'⟩ := q
      simp only [alignedStarts, List.map_cons, starts_cons, List.cons.injEq, true_and] at h
      -- the second block starts at a multiple of `a` on one side and at `b + a` on the other
      have hdvd : a ∣ b + a := h.1 ▸ dvd_alignUp (b + s) a
      exact .inr ((Nat.dvd_add_iff_left (dvd_refl a)).mpr hdvd)
  · rintro (rfl | hab)
    · rfl
    · refine alignedStarts_eq_starts hl hfit fun p hp => ?_
      rcases List.mem_cons.mp hp with rfl | hp
      · exact hab
      · exact ((List.pairwise_cons.mp hl).1 p.2 (List.mem_map_of_mem hp)).trans hab

/-! ## Blocks that tile a range -/

section Tiles

variable {α β : Type*}

/-- The blocks, each with its start and its size, follow one another from `lo` to `hi`. -/
def Tiles [Add α] : α → List (α × α) → α → Prop
  | lo, [], hi => lo = hi
  | lo, (a, s) :: l, hi => a = lo ∧ Tiles (lo + s) l hi

theorem Tiles.append [Add α] {lo mid hi : α} {l l' : List (α × α)} (h : Tiles lo l mid)
    (h' : Tiles mid l' hi) : Tiles lo (l ++ l') hi := by
  induction l generalizing lo with
  | nil =>
    cases h
    exact h'
  | cons p l ih => exact ⟨h.1, ih h.2⟩

/-- Pieces that tile consecutive ranges tile them together. -/
theorem tiles_flatMap [Add α] {f : β → List (α × α)} {bound : ℕ → α} {l : List β}
    (h : ∀ i x, l[i]? = some x → Tiles (bound i) (f x) (bound (i + 1))) :
    Tiles (bound 0) (l.flatMap f) (bound l.length) := by
  induction l generalizing bound with
  | nil => rfl
  | cons x l ih =>
    have hhead : Tiles (bound 0) (f x) (bound 1) := h 0 x rfl
    have htail := @ih (fun i => bound (i + 1)) fun i y hy => h (i + 1) y hy
    rw [List.flatMap_cons]
    exact hhead.append htail

/-- Blocks tile a range when each starts behind the sizes of the ones before it. -/
theorem tiles_of_getElem? [AddMonoid α] {lo : α} {l : List (α × α)}
    (h : ∀ i p, l[i]? = some p → p.1 = lo + ((l.take i).map Prod.snd).sum) :
    Tiles lo l (lo + (l.map Prod.snd).sum) := by
  induction l generalizing lo with
  | nil => exact (add_zero lo).symm
  | cons p l ih =>
    have hstart : p.1 = lo := by simpa using h 0 p rfl
    refine ⟨hstart, ?_⟩
    rw [List.map_cons, List.sum_cons, ← add_assoc]
    apply ih
    intro i q hq
    have hq' := h (i + 1) q hq
    rwa [List.take_succ_cons, List.map_cons, List.sum_cons, ← add_assoc] at hq'

variable [AddCommGroup α] [LinearOrder α] [IsOrderedAddMonoid α]

theorem Tiles.le {lo hi : α} {l : List (α × α)} (h : Tiles lo l hi) (hs : ∀ p ∈ l, 0 ≤ p.2) :
    lo ≤ hi := by
  induction l generalizing lo with
  | nil => exact le_of_eq h
  | cons p l ih =>
    obtain ⟨hp, hl⟩ := List.forall_mem_cons.mp hs
    exact (le_add_of_nonneg_right hp).trans (ih h.2 hl)

/-- A block of a tiled range starts inside it. -/
theorem Tiles.le_start {lo hi : α} {l : List (α × α)} (h : Tiles lo l hi) (hs : ∀ p ∈ l, 0 ≤ p.2)
    {p : α × α} (hp : p ∈ l) : lo ≤ p.1 := by
  induction l generalizing lo with
  | nil => cases hp
  | cons q l ih =>
    obtain ⟨hq, hl⟩ := List.forall_mem_cons.mp hs
    rcases List.mem_cons.mp hp with rfl | hp
    · exact le_of_eq h.1.symm
    · exact (le_add_of_nonneg_right hq).trans (ih h.2 hl hp)

/-- **No gap and no overlap.** Every address of a tiled range lies in exactly one block. -/
theorem Tiles.existsUnique {lo hi : α} {l : List (α × α)} (h : Tiles lo l hi)
    (hs : ∀ p ∈ l, 0 ≤ p.2) {x : α} (hlo : lo ≤ x) (hhi : x < hi) :
    ∃! i : ℕ, ∃ p : α × α, l[i]? = some p ∧ p.1 ≤ x ∧ x < p.1 + p.2 := by
  induction l generalizing lo with
  | nil =>
    cases h
    exact absurd hhi (not_lt.mpr hlo)
  | cons p l ih =>
    obtain ⟨hp, hl⟩ := List.forall_mem_cons.mp hs
    obtain ⟨hstart, htail⟩ := h
    rcases lt_or_ge x (lo + p.2) with hin | hout
    · refine ⟨0, ⟨p, rfl, hstart.le.trans hlo, hstart ▸ hin⟩, ?_⟩
      rintro i ⟨q, hq, hqx, -⟩
      cases i with
      | zero => rfl
      | succ i =>
        have hmem : q ∈ l := List.mem_of_getElem? hq
        exact absurd hin (not_lt.mpr ((htail.le_start hl hmem).trans hqx))
    · obtain ⟨i, ⟨q, hq, hqx⟩, huniq⟩ := ih htail hl hout
      refine ⟨i + 1, ⟨q, hq, hqx⟩, ?_⟩
      rintro j ⟨r, hr, hrx⟩
      cases j with
      | zero =>
        obtain rfl : p = r := Option.some.inj hr
        exact absurd (hstart ▸ hrx.2) (not_lt.mpr hout)
      | succ j => rw [huniq j ⟨r, hr, hrx⟩]

end Tiles

end Packing
