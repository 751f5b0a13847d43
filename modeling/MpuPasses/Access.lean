import MpuPasses.RegionRuns

/-!
# What a region admits

The MPU compares the address bits above the size of a region with its base, and the next three bits
select a subregion that can be switched off. `Bank.Admits` is this rule for fetching an instruction,
access for everyone. `configured_admits_iff` says when the banks that `MPU_Config` fills with the laid
out functions admit just the addresses of the functions' regions.
-/

namespace MpuPasses

open Chars

/-- The lowest address bit that is compared with the base. -/
def Bank.lsbit (b : Bank) : ℕ := (b.rasr >>> sizeBit &&& 0x1F#32).toNat + 1

/-- The subregion of an address. -/
def Bank.subregion (b : Bank) (a : BitVec 32) : ℕ := (a >>> (b.lsbit - 3) &&& 7#32).toNat

/-- Code at the address may be executed because of this region: it is enabled, read access is for
everyone, instruction fetches are not forbidden, the address matches, and its subregion is not switched
off. Regions below 256 bytes have no subregions. -/
structure Bank.Admits (b : Bank) (a : BitVec 32) : Prop where
  enabled : b.rasr.getLsbD enableBit = true
  readable : b.rasr.getLsbD (apBit + 1) = true
  fetch : b.rasr.getLsbD xnBit = false
  matches_base : a >>> b.lsbit = (b.rbar &&& addrMask) >>> b.lsbit
  subregion : 8 ≤ b.lsbit → b.rasr.getLsbD (srdBit + b.subregion a) = false

theorem Bank.subregion_lt (b : Bank) (a : BitVec 32) : b.subregion a < 8 := by
  unfold subregion
  rw [BitVec.toNat_and, show (7#32).toNat = 2 ^ 3 - 1 by rfl, Nat.and_two_pow_sub_one_eq_mod]
  exact Nat.mod_lt _ (by decide)

/-! ## The attributes of `MPU_Config` -/

theorem configRasr_bits {z : BitVec 32} (h : z < 32#32) :
    (configRasr z).getLsbD enableBit = true ∧ (configRasr z).getLsbD (apBit + 1) = true ∧
      (configRasr z).getLsbD xnBit = false ∧
        ∀ i : Fin 8, (configRasr z).getLsbD (srdBit + i) = false := by
  obtain ⟨k, rfl⟩ := eq_ofNat_of_lt h
  revert k
  decide

/-- With these attributes only the comparison with the base counts. -/
theorem Bank.admits_iff {b : Bank} {z : BitVec 32} (hz : z < 32#32) (hb : b.rasr = configRasr z)
    (a : BitVec 32) : b.Admits a ↔ a >>> (z.toNat + 1) = b.view.start >>> (z.toNat + 1) := by
  have hlsbit : b.lsbit = z.toNat + 1 := by
    unfold lsbit
    rw [hb, show sizeBit = 1 by rfl, configRasr_size hz]
  obtain ⟨henable, hread, hfetch, hsrd⟩ := configRasr_bits hz
  rw [← hb] at henable hread hfetch hsrd
  rw [← hlsbit]
  constructor
  · exact fun h => h.matches_base
  · intro h
    exact ⟨henable, hread, hfetch, h, fun _ => hsrd ⟨_, b.subregion_lt a⟩⟩

/-! ## Addresses -/

theorem shiftRight_eq_shiftRight {n : ℕ} (a s : BitVec 32) :
    a >>> n = s >>> n ↔ a.toNat / 2 ^ n = s.toNat / 2 ^ n := by
  rw [← BitVec.toNat_inj, BitVec.toNat_ushiftRight, BitVec.toNat_ushiftRight,
    Nat.shiftRight_eq_div_pow, Nat.shiftRight_eq_div_pow]

/-- The bits above `n` are those of a multiple of `2 ^ n` just from this multiple to the next. -/
theorem shiftRight_eq_iff {n : ℕ} (a : BitVec 32) {s : BitVec 32} (hs : 2 ^ n ∣ s.toNat) :
    a >>> n = s >>> n ↔ s.toNat ≤ a.toNat ∧ a.toNat < s.toNat + 2 ^ n := by
  obtain ⟨q, hq⟩ := hs
  have hpos : 0 < 2 ^ n := Nat.two_pow_pos n
  rw [shiftRight_eq_shiftRight, hq, Nat.mul_div_cancel_left q hpos, Nat.div_eq_iff hpos,
    Nat.mul_comm q]
  constructor
  · rintro ⟨hlow, hhigh⟩
    exact ⟨hlow, by omega⟩
  · rintro ⟨hlow, hhigh⟩
    exact ⟨hlow, by omega⟩

/-- Below an address that is no multiple of `2 ^ n` there is one with the same bits above `n`. -/
theorem dvd_of_forall_shiftRight {n : ℕ} {s : BitVec 32}
    (h : ∀ a : BitVec 32, a >>> n = s >>> n → s.toNat ≤ a.toNat) : 2 ^ n ∣ s.toNat := by
  have hlt := s.isLt
  have hmod := Nat.mod_le s.toNat (2 ^ n)
  have ha : (BitVec.ofNat 32 (s.toNat - s.toNat % 2 ^ n)).toNat = s.toNat - s.toNat % 2 ^ n :=
    Nat.mod_eq_of_lt (by omega)
  have hle := h (BitVec.ofNat 32 (s.toNat - s.toNat % 2 ^ n)) (by
    have hpos : 0 < 2 ^ n := Nat.two_pow_pos n
    have hdiv : s.toNat - s.toNat % 2 ^ n = 2 ^ n * (s.toNat / 2 ^ n) := by
      have := Nat.mod_add_div s.toNat (2 ^ n)
      omega
    rw [shiftRight_eq_shiftRight, ha, hdiv, Nat.mul_div_cancel_left _ hpos])
  rw [ha] at hle
  exact Nat.dvd_of_mod_eq_zero (by omega)

/-- The fields of a laid out function match just its own addresses if it is aligned to its size. -/
theorem LaidOut.matches_iff {f : Func} (h : LaidOut f) {k : BitVec 32}
    (hk : toSize f.toLinkFunc.regionSize = some k) :
    (∀ a : BitVec 32, a >>> (k.toNat + 1) = f.toLinkFunc.regionStart >>> (k.toNat + 1) ↔
      a.toNat ∈ f.region) ↔ f.regionSize ∣ f.regionStart := by
  obtain ⟨n, -, h30, hsize, hto⟩ := h.exists_toSize
  obtain rfl := Option.some.inj (hto.symm.trans hk)
  have hn : (BitVec.ofNat 32 n).toNat = n := Nat.mod_eq_of_lt (by omega)
  rw [hn, hsize, ← h.toNat_regionStart]
  constructor
  · intro hall
    apply dvd_of_forall_shiftRight
    intro a ha
    have hmem := (hall a).mp ha
    rw [h.toNat_regionStart]
    exact hmem.1
  · intro hdvd a
    rw [shiftRight_eq_iff a hdvd, h.toNat_regionStart, ← hsize]
    exact Set.mem_Ico.symm

namespace LinkTable

variable (T : LinkTable)

/-- No function has more than 16384 bytes. -/
def Small : Prop := ∀ f ∈ T.funcs, f.functionSize ≤ 16384

theorem laidOut {f : Func} (hf : f ∈ T.out) : LaidOut f :=
  laidOut_of_fitsInt T.laid hf ((readLinkAddr_eq_some_iff.mp T.read).1 f hf)

theorem table_eq : T.table = T.out.map Func.toLinkFunc := (readLinkAddr_eq_some_iff.mp T.read).2

theorem out_eq : T.out = assign codeStart (sortFuncs T.funcs) := by
  have h := T.laid
  rw [layout_eq (ne_nil_of_layout h)] at h
  exact (Option.some.inj h).symm

theorem small_iff : (∀ f ∈ T.out, f.regionSize ∣ f.regionStart) ↔ T.Small := by
  have hmem : T.Small ↔ ∀ f ∈ sortFuncs T.funcs, f.functionSize ≤ 16384 :=
    forall_congr' fun f => by rw [(perm_sortFuncs T.funcs).mem_iff]
  rw [T.out_eq, hmem]
  have hsort := pairwise_sortFuncs T.funcs
  cases hs : sortFuncs T.funcs with
  | nil => simp [assign]
  | cons f fs => exact aligned_assign_iff (hs ▸ hsort)

variable {T}

/-- A bank with the attributes of `MPU_Config` and the region of a function admits just the addresses
of this function. -/
theorem admits_iff_mem_region (h : T.Small) {b : Bank} {name : Str} (hview : T.IsRegion b.view name)
    (hb : b.rasr = configRasr b.view.size) :
    ∃ f ∈ T.out, f.name = name ∧ ∀ a, b.Admits a ↔ a.toNat ∈ f.region := by
  obtain ⟨g, hg, hname, hstart, hsize⟩ := hview
  obtain ⟨-, k, hk, hlt⟩ := T.exists_field hg
  obtain rfl := Option.some.inj (hk.symm.trans hsize)
  rw [T.table_eq] at hg
  obtain ⟨f, hf, rfl⟩ := List.mem_map.mp hg
  refine ⟨f, hf, hname, fun a => ?_⟩
  rw [Bank.admits_iff hlt hb, hstart]
  exact ((T.laidOut hf).matches_iff hsize).mpr (T.small_iff.mpr h f hf) a

/-- **What the regions admit.** Filling a bank with the record of a function makes it admit just the
addresses that the layout gives the function, for every function, exactly if none has more than 16384
bytes. -/
theorem configured_admits_iff (T : LinkTable) :
    (∀ f ∈ T.out, ∀ k, toSize f.toLinkFunc.regionSize = some k →
      ∀ (d : Device) (num : BitVec 32) (a : BitVec 32),
        ((mpuConfig f.toLinkFunc.regionStart k num d).bank (num.setWidth 8)).Admits a ↔
          a.toNat ∈ f.region) ↔ T.Small := by
  have hbank : ∀ f ∈ T.out, ∀ k, toSize f.toLinkFunc.regionSize = some k →
      ∀ (d : Device) (num : BitVec 32) (a : BitVec 32),
        ((mpuConfig f.toLinkFunc.regionStart k num d).bank (num.setWidth 8)).Admits a ↔
          a >>> (k.toNat + 1) = f.toLinkFunc.regionStart >>> (k.toNat + 1) := by
    intro f hf k hk d num a
    obtain ⟨haligned, k', hk', hlt⟩ :=
      T.exists_field (g := f.toLinkFunc) (T.table_eq ▸ List.mem_map_of_mem hf)
    obtain rfl := Option.some.inj (hk'.symm.trans hk)
    obtain ⟨-, hb⟩ := mpuConfig_bank haligned k' num d
    rw [hb, Bank.admits_iff hlt rfl]
    unfold Bank.view
    rw [and_addrMask haligned]
  rw [← T.small_iff]
  refine forall₂_congr fun f hf => ?_
  obtain ⟨n, -, -, -, hto⟩ := (T.laidOut hf).exists_toSize
  constructor
  · intro h
    refine ((T.laidOut hf).matches_iff hto).mp fun a => ?_
    rw [← hbank f hf _ hto resetDevice 1#32 a]
    exact h _ hto resetDevice 1#32 a
  · intro hdvd k hk d num a
    rw [hbank f hf k hk d num a]
    exact ((T.laidOut hf).matches_iff hk).mpr hdvd a

end LinkTable

end MpuPasses
