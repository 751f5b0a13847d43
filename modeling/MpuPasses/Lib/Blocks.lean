import MpuPasses.Lib.Loop

/-!
# Blocks of addresses

An address space of machine words wraps around, so the `n` addresses from `a` on are those whose
distance from `a` is below `n`. `moved m dst src n` is the memory `m` with a block copied and
`filled m dst n v` with a block filled; `moved_succ` and `filled_succ` say what one more store adds to
a loop that works its way up.
-/

namespace Blocks

variable {w : ℕ} {β : Type*}

/-- The `n` addresses from `a` on. -/
def Cells (a : BitVec w) (n : ℕ) : Set (BitVec w) := {x | (x - a).toNat < n}

theorem mem_cells {a x : BitVec w} {n : ℕ} : x ∈ Cells a n ↔ (x - a).toNat < n := Iff.rfl

instance (a : BitVec w) (n : ℕ) : DecidablePred (· ∈ Cells a n) :=
  fun x => inferInstanceAs (Decidable ((x - a).toNat < n))

theorem add_mem_cells {a k : BitVec w} {n : ℕ} : a + k ∈ Cells a n ↔ k.toNat < n := by
  rw [mem_cells, add_sub_cancel_left]

/-- A block that does not wrap around is an interval. -/
theorem mem_cells_iff {a x : BitVec w} {n : ℕ} (h : a.toNat + n ≤ 2 ^ w) :
    x ∈ Cells a n ↔ a.toNat ≤ x.toNat ∧ x.toNat < a.toNat + n := by
  have ha := a.isLt
  have hx := x.isLt
  rw [mem_cells, BitVec.toNat_sub]
  rcases Nat.lt_or_ge x.toNat a.toNat with hlt | hge
  · rw [Nat.mod_eq_of_lt (by omega)]
    omega
  · rw [show 2 ^ w - a.toNat + x.toNat = x.toNat - a.toNat + 2 ^ w by omega, Nat.add_mod_right,
      Nat.mod_eq_of_lt (by omega)]
    omega

/-- The distance of the next address. -/
theorem toNat_sub_lt_succ {a x k : BitVec w} (hk : k.toNat + 1 < 2 ^ w) :
    (x - a).toNat < (k + 1).toNat ↔ x = a + k ∨ (x - a).toNat < k.toNat := by
  have heq : x = a + k ↔ (x - a).toNat = k.toNat := by
    rw [BitVec.toNat_inj, sub_eq_iff_eq_add, BitVec.add_comm]
  rw [Loop.toNat_succ hk, heq]
  omega

/-! ## Copying and filling -/

/-- The memory after the block of `n` cells at `src` has been copied to `dst`. -/
def moved (m : BitVec w → β) (dst src : BitVec w) (n : ℕ) : BitVec w → β :=
  fun x => if x ∈ Cells dst n then m (src + (x - dst)) else m x

/-- The memory after the `n` cells at `dst` have been set to `v`. -/
def filled (m : BitVec w → β) (dst : BitVec w) (n : ℕ) (v : β) : BitVec w → β :=
  fun x => if x ∈ Cells dst n then v else m x

section

variable (m : BitVec w → β) (dst src : BitVec w)

theorem moved_zero : moved m dst src 0 = m := by
  funext x
  exact if_neg (Nat.not_lt_zero _)

theorem filled_zero (v : β) : filled m dst 0 v = m := by
  funext x
  exact if_neg (Nat.not_lt_zero _)

variable {m dst src}

theorem moved_of_mem {n : ℕ} {x : BitVec w} (h : x ∈ Cells dst n) :
    moved m dst src n x = m (src + (x - dst)) := if_pos h

theorem moved_of_not_mem {n : ℕ} {x : BitVec w} (h : x ∉ Cells dst n) :
    moved m dst src n x = m x := if_neg h

theorem filled_of_mem {n : ℕ} {v : β} {x : BitVec w} (h : x ∈ Cells dst n) :
    filled m dst n v x = v := if_pos h

theorem filled_of_not_mem {n : ℕ} {v : β} {x : BitVec w} (h : x ∉ Cells dst n) :
    filled m dst n v x = m x := if_neg h

/-- One more copied cell, if the loop has not written its source before. -/
theorem moved_succ {k : BitVec w} (hk : k.toNat + 1 < 2 ^ w)
    (hsrc : src + k ∉ Cells dst k.toNat) :
    Function.update (moved m dst src k.toNat) (dst + k) (moved m dst src k.toNat (src + k)) =
      moved m dst src (k + 1).toNat := by
  funext x
  rw [moved_of_not_mem hsrc]
  by_cases hx : x = dst + k
  · have hnew : dst + k ∈ Cells dst (k + 1).toNat := (toNat_sub_lt_succ hk).mpr (Or.inl rfl)
    rw [hx, Function.update_self, moved_of_mem hnew, add_sub_cancel_left]
  · rw [Function.update_of_ne hx]
    have hiff : x ∈ Cells dst (k + 1).toNat ↔ x ∈ Cells dst k.toNat := by
      rw [mem_cells, mem_cells, toNat_sub_lt_succ hk, or_iff_right hx]
    unfold moved
    simp only [hiff]

/-- One more filled cell. -/
theorem filled_succ {k : BitVec w} (hk : k.toNat + 1 < 2 ^ w) (v : β) :
    Function.update (filled m dst k.toNat v) (dst + k) v = filled m dst (k + 1).toNat v := by
  funext x
  by_cases hx : x = dst + k
  · have hnew : dst + k ∈ Cells dst (k + 1).toNat := (toNat_sub_lt_succ hk).mpr (Or.inl rfl)
    rw [hx, Function.update_self, filled_of_mem hnew]
  · rw [Function.update_of_ne hx]
    have hiff : x ∈ Cells dst (k + 1).toNat ↔ x ∈ Cells dst k.toNat := by
      rw [mem_cells, mem_cells, toNat_sub_lt_succ hk, or_iff_right hx]
    unfold filled
    simp only [hiff]

end

end Blocks
