import MpuPasses.Lib.Loop

/-!
# `to_size` of `Set_Operand.cpp`

`to_size` turns a region size into the SIZE field of `RASR`, where the field `k` stands for
`2^(k+1)` bytes: from 32 bytes and field 4 on, both double step by step until the size is reached.
All arithmetic is modulo `2^32`.
-/

namespace MpuPasses

/-- The test in front of the loop; the bound is compared in 64 bits. -/
def ToSizeGuard (size : BitVec 32) : Prop :=
  32 ≤ size.toNat ∧ size.toNat ≤ 0x100000000 ∧ size.toNat % 32 = 0

instance : DecidablePred ToSizeGuard := fun size => by unfold ToSizeGuard; infer_instance

/-- `while(mini < size) { mini *= 2; region += 1; }` with at most `n` tests. -/
def toSizeLoop (size : BitVec 32) (n : ℕ) (s : BitVec 32 × BitVec 32) :
    Loop.Outcome (BitVec 32 × BitVec 32) :=
  Loop.run (fun s => decide (s.1 < size)) (fun s => some (s.1 * 2, s.2 + 1)) n s

/-- `to_size` with at most `n` tests of the loop condition. -/
def toSizeRun (n : ℕ) (size : BitVec 32) : Loop.Outcome (BitVec 32 × BitVec 32) :=
  if ToSizeGuard size then toSizeLoop size n (32, 0b00100) else .done (32, 0b00100)

/-- `to_size`; none if the loop does not end within 32 tests. -/
def toSize (size : BitVec 32) : Option (BitVec 32) :=
  (toSizeRun 32 size).final?.map Prod.snd

/-- What holds of the two variables at the loop test: `mini` is `2^(k+1)` for the field `k`, and
half of it was too small. -/
def ToSizeInv (size : BitVec 32) (s : BitVec 32 × BitVec 32) : Prop :=
  ∃ k, 4 ≤ k ∧ k ≤ 30 ∧ s.1.toNat = 2 ^ (k + 1) ∧ s.2 = BitVec.ofNat 32 k ∧
    (k = 4 ∨ 2 ^ k < size.toNat)

theorem toSizeInv_step {size : BitVec 32} (hsize : size.toNat ≤ 2 ^ 31)
    {s : BitVec 32 × BitVec 32} (hs : ToSizeInv size s) (hlt : s.1 < size) :
    ToSizeInv size (s.1 * 2, s.2 + 1) := by
  obtain ⟨k, h4, h30, hmini, hregion, -⟩ := hs
  have hpow : 2 ^ (k + 1) < size.toNat := hmini ▸ BitVec.lt_def.mp hlt
  have hk : k + 1 < 31 := (Nat.pow_lt_pow_iff_right Nat.one_lt_two).mp (hpow.trans_le hsize)
  have hnext : 2 ^ (k + 1 + 1) ≤ 2 ^ 31 := Nat.pow_le_pow_right Nat.two_pos (by omega)
  refine ⟨k + 1, by omega, by omega, ?_, ?_, .inr hpow⟩
  · rw [BitVec.toNat_mul, hmini, show (2 : BitVec 32).toNat = 2 by rfl, ← Nat.pow_succ]
    exact Nat.mod_eq_of_lt (hnext.trans_lt (by decide))
  · rw [hregion, BitVec.ofNat_add]
    rfl

/-- Up to `2^31` the result is the least field from 4 on whose region holds the size. -/
theorem toSize_eq_some {size : BitVec 32} (hguard : ToSizeGuard size) (hsize : size.toNat ≤ 2 ^ 31) :
    ∃ k, toSize size = some (BitVec.ofNat 32 k) ∧ 4 ≤ k ∧ k ≤ 30 ∧
      size.toNat ≤ 2 ^ (k + 1) ∧ (k = 4 ∨ 2 ^ k < size.toNat) := by
  have hstart : ToSizeInv size (32, 0b00100) := ⟨4, le_rfl, by decide, rfl, rfl, .inl rfl⟩
  -- the field itself bounds the number of turns
  have hends : (toSizeLoop size 32 (32, 0b00100)).final?.isSome := by
    refine Loop.run_final?_isSome (fun s => ToSizeInv size s) (fun s => 31 - s.2.toNat)
      (fun _ => rfl) (fun s t hs hg hb => ?_) hstart (by decide)
    obtain rfl := Option.some.inj hb
    have hlt := of_decide_eq_true hg
    refine ⟨toSizeInv_step hsize hs hlt, ?_⟩
    obtain ⟨k, -, h30, -, hregion, -⟩ := hs
    have hk : s.2.toNat = k := by rw [hregion, BitVec.toNat_ofNat]; omega
    have hk' : (s.2 + 1).toNat = k + 1 := by
      rw [BitVec.toNat_add, hk]
      exact Nat.mod_eq_of_lt (by rw [show (1 : BitVec 32).toNat = 1 by rfl]; omega)
    show 31 - (s.2 + 1).toNat < 31 - s.2.toNat
    omega
  have hdone := Loop.run_eq_done_get hends
  obtain ⟨⟨k, h4, h30, hmini, hregion, hlow⟩, hexit⟩ := Loop.run_invariant (ToSizeInv size)
    (fun s t hs hg hb => by
      obtain rfl := Option.some.inj hb
      exact toSizeInv_step hsize hs (of_decide_eq_true hg)) hstart hdone
  refine ⟨k, ?_, h4, h30, ?_, hlow⟩
  · rw [toSize, toSizeRun, if_pos hguard, toSizeLoop, hdone, ← hregion]
    rfl
  · have hge := of_decide_eq_false hexit
    rw [BitVec.lt_def, hmini, not_lt] at hge
    exact hge

/-- A power of two is turned into its exponent less one. -/
theorem toSize_two_pow {size : BitVec 32} {k : ℕ} (h4 : 4 ≤ k) (h30 : k ≤ 30)
    (hsize : size.toNat = 2 ^ (k + 1)) : toSize size = some (BitVec.ofNat 32 k) := by
  have hle : 2 ^ (k + 1) ≤ 2 ^ 31 := Nat.pow_le_pow_right Nat.two_pos (by omega)
  have h32 : 2 ^ 5 ∣ 2 ^ (k + 1) := Nat.pow_dvd_pow 2 (by omega)
  have h5 : 2 ^ 5 ≤ 2 ^ (k + 1) := Nat.pow_le_pow_right Nat.two_pos (by omega)
  have hguard : ToSizeGuard size := ⟨by omega, by omega, by omega⟩
  obtain ⟨j, hj, hj4, hj30, hup, hlow⟩ := toSize_eq_some hguard (by omega)
  rw [hsize] at hup hlow
  have h1 := (Nat.pow_le_pow_iff_right Nat.one_lt_two).mp hup
  have h2 : j = 4 ∨ j < k + 1 := hlow.imp_right (Nat.pow_lt_pow_iff_right Nat.one_lt_two).mp
  obtain rfl : j = k := by omega
  exact hj

/-! ## When the loop ends -/

/-- The loop ends, and the result is the least field from 4 on whose region holds the size. -/
def ReturnsLeast (size : BitVec 32) : Prop :=
  ∃ n mini region, toSizeRun n size = .done (mini, region) ∧
    IsLeast {k : ℕ | 4 ≤ k ∧ size.toNat ≤ 2 ^ (k + 1)} region.toNat

/-- What holds of `mini` for ever if the size is greater than every power of two: it is one of them,
or it has wrapped to 0. -/
def MiniWraps (s : BitVec 32 × BitVec 32) : Prop :=
  s.1 = 0 ∨ ∃ k, k ≤ 31 ∧ s.1.toNat = 2 ^ k

theorem miniWraps_step {s : BitVec 32 × BitVec 32} (hs : MiniWraps s) :
    MiniWraps (s.1 * 2, s.2 + 1) := by
  obtain hzero | ⟨k, hk, hmini⟩ := hs
  · left
    show s.1 * 2 = 0
    rw [hzero]
    rfl
  · have hdouble : (s.1 * 2).toNat = 2 ^ (k + 1) % 2 ^ 32 := by
      rw [BitVec.toNat_mul, hmini, Nat.pow_succ]
      rfl
    rcases hk.lt_or_eq with hlt | rfl
    · right
      have hsmall : 2 ^ (k + 1) < 2 ^ 32 := Nat.pow_lt_pow_right Nat.one_lt_two (by omega)
      exact ⟨k + 1, hlt, hdouble.trans (Nat.mod_eq_of_lt hsmall)⟩
    · left
      apply BitVec.eq_of_toNat_eq
      exact hdouble.trans (Nat.mod_self _)

theorem lt_of_miniWraps {size : BitVec 32} (hsize : 2 ^ 31 < size.toNat)
    {s : BitVec 32 × BitVec 32} (hs : MiniWraps s) : s.1 < size := by
  rw [BitVec.lt_def]
  obtain hzero | ⟨k, hk, hmini⟩ := hs
  · rw [hzero]
    exact (Nat.zero_le _).trans_lt hsize
  · rw [hmini]
    exact (Nat.pow_le_pow_right Nat.two_pos hk).trans_lt hsize

/-- Above `2^31` the loop never ends. -/
theorem toSizeRun_diverges {size : BitVec 32} (hguard : ToSizeGuard size)
    (hsize : 2 ^ 31 < size.toNat) (n : ℕ) : toSizeRun n size = .running := by
  unfold toSizeRun toSizeLoop
  rw [if_pos hguard]
  apply Loop.run_diverges MiniWraps
  · intro s hs
    exact ⟨decide_eq_true (lt_of_miniWraps hsize hs), _, rfl, miniWraps_step hs⟩
  · exact .inr ⟨5, by omega, rfl⟩

/-- **When `to_size` returns the least field.** For a size that the guard admits, exactly up to
`2^31`. No size above comes from the records, whose numbers `stoi` reads as `int`s. -/
theorem returnsLeast_iff {size : BitVec 32} (hguard : ToSizeGuard size) :
    ReturnsLeast size ↔ size.toNat ≤ 2 ^ 31 := by
  constructor
  · rintro ⟨n, mini, region, hdone, -⟩
    by_contra hsize
    rw [toSizeRun_diverges hguard (not_le.mp hsize)] at hdone
    cases hdone
  · intro hsize
    obtain ⟨k, hk, h4, h30, hup, hlow⟩ := toSize_eq_some hguard hsize
    obtain ⟨⟨mini, region⟩, hfinal, hregion⟩ := Option.map_eq_some_iff.mp hk
    have hval : region.toNat = k := by
      show (mini, region).2.toNat = k
      rw [hregion, BitVec.toNat_ofNat]
      omega
    refine ⟨32, mini, region, Loop.Outcome.eq_done_of_final? hfinal, ?_⟩
    rw [hval]
    refine ⟨⟨h4, hup⟩, fun j hj => ?_⟩
    obtain ⟨hj4, hj⟩ := hj
    rcases hlow with rfl | hlow
    · exact hj4
    · exact Nat.lt_succ_iff.mp ((Nat.pow_lt_pow_iff_right Nat.one_lt_two).mp (hlow.trans_le hj))

/-- The first multiple of 32 for which it never returns. -/
theorem not_returnsLeast_above : ToSizeGuard 0x80000020 ∧ ¬ ReturnsLeast 0x80000020 := by
  have hguard : ToSizeGuard 0x80000020 := by decide
  refine ⟨hguard, ?_⟩
  rintro ⟨n, mini, region, hdone, -⟩
  rw [toSizeRun_diverges hguard (by decide)] at hdone
  cases hdone

theorem returnsLeast_96 : ReturnsLeast 96 := (returnsLeast_iff (by decide)).mpr (by decide)

end MpuPasses
