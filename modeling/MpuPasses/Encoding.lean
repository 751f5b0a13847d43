import MpuPasses.LinkAddr
import MpuPasses.RegionMap
import MpuPasses.ToSize

/-!
# From the laid out size to the registers

A region size crosses four encodings: the integer that `function_size.py` rounds up, its decimal
text in `Link_addr.txt`, the `uint32_t` that `Set_Operand` reads and turns into a SIZE field, and
the bits of `RASR`. `laidOut_reaches_registers` follows it through all of them, together with the
start address that selects the region.
-/

namespace MpuPasses

open Chars

/-- The record `g` that `Set_Operand` reads puts the region of `f` into the registers. -/
def ReachesRegisters (f : Func) (g : LinkFunc) : Prop :=
  g.name = f.name ∧ g.regionStart.toNat = f.regionStart ∧ 32 ∣ g.regionStart.toNat ∧
  g.regionStart.getLsbD 4 = false ∧
  ∃ k < 32, toSize g.regionSize = some (BitVec.ofNat 32 k) ∧ 2 ^ (k + 1) = f.regionSize ∧
    f.functionSize ≤ (2 ^ (k + 1) : ℕ) ∧
    ∀ (d : Device) (num : BitVec 32), num < 8#32 →
      let d' := mpuConfig g.regionStart (BitVec.ofNat 32 k) num d
      d'.region = num.setWidth 8 ∧
      (d'.bank (num.setWidth 8)).rbar = g.regionStart ∧
      ((d'.bank (num.setWidth 8)).rasr >>> 1 &&& 0x1F#32).toNat = k ∧
      (num = 1#32 → (readCallerAddr d').2 = g.regionStart ∧
        (readCallerSize d').2 = BitVec.ofNat 32 k)

theorem and_31_of_dvd {s : BitVec 32} (h : 32 ∣ s.toNat) : s &&& 0x1F#32 = 0#32 := by
  apply BitVec.eq_of_toNat_eq
  rw [BitVec.toNat_and, show (0x1F#32).toNat = 2 ^ 5 - 1 by rfl, Nat.and_two_pow_sub_one_eq_mod]
  simpa using Nat.mod_eq_zero_of_dvd h

/-- The bank that `MPU_Config` leaves, and that its region stays selected. -/
theorem mpuConfig_bank {s : BitVec 32} (hs : s &&& 0x1F#32 = 0#32) (z num : BitVec 32) (d : Device) :
    (mpuConfig s z num d).region = num.setWidth 8 ∧
      (mpuConfig s z num d).bank (num.setWidth 8) = ⟨s, configRasr z⟩ := by
  simp [mpuConfig, writeRbar_of_aligned hs, enable, disable, Device.writeShcsr, Device.writeCtrl,
    Device.writeRnr, Device.writeRasr, Device.setBank, Device.region]

/-- A region of a layout that ends at `2^31` at the latest has a size of `2^(k+1)` for a SIZE
field `k`. -/
theorem exists_field_of_le {size : ℤ} (h : regionSize size ≤ 2 ^ 31) :
    ∃ k, 4 ≤ k ∧ k ≤ 30 ∧ regionSize size = 2 ^ (k + 1) := by
  obtain ⟨k, hk, -⟩ := exists_regionSize_eq size
  have h31 : k + 5 ≤ 31 := (Nat.pow_le_pow_iff_right Nat.one_lt_two).mp (hk ▸ h)
  exact ⟨k + 4, by omega, by omega, hk⟩

/-- All starts of a layout are multiples of 32. -/
theorem dvd_32_of_mem_assign {b : ℕ} (hb : 32 ∣ b) {fs : List Func} {f : Func}
    (h : f ∈ assign b fs) : 32 ∣ f.regionStart := by
  induction fs generalizing b with
  | nil => cases h
  | cons g fs ih =>
    rcases List.mem_cons.mp h with rfl | h
    · exact hb
    · exact ih (dvd_add hb (dvd_32_regionSize g.functionSize)) h

/-- What a layout guarantees of a record whose addresses fit an `int`. -/
structure LaidOut (f : Func) : Prop where
  size_eq : f.regionSize = regionSize f.functionSize
  dvd_start : 32 ∣ f.regionStart
  start_lt : f.regionStart < 2 ^ 31
  size_lt : f.regionSize < 2 ^ 31

theorem layout_records {fs out : List Func} (hout : layout fs = some out) {f : Func} (hf : f ∈ out) :
    f.regionSize = regionSize f.functionSize ∧ 32 ∣ f.regionStart ∧ codeStart ≤ f.regionStart := by
  rw [layout_eq (ne_nil_of_layout hout)] at hout
  cases hout
  exact ⟨regionSize_of_mem_assign hf, dvd_32_of_mem_assign (by decide) hf,
    le_regionStart_of_mem_assign hf⟩

theorem laidOut_of_layout {fs out : List Func} (hout : layout fs = some out)
    (h31 : ∀ f ∈ out, f.regionStart + f.regionSize ≤ 2 ^ 31) {f : Func} (hf : f ∈ out) :
    LaidOut f := by
  obtain ⟨hsize, hdvd, hstart⟩ := layout_records hout hf
  obtain ⟨k, hk, -⟩ := exists_regionSize_eq f.functionSize
  have hpos : 0 < f.regionSize := by rw [hsize, hk]; positivity
  have hcode : 0 < codeStart := by decide
  have hend := h31 f hf
  exact ⟨hsize, hdvd, by omega, by omega⟩

/-- Records that the reader accepts fit. -/
theorem laidOut_of_fitsInt {fs out : List Func} (hout : layout fs = some out) {f : Func}
    (hf : f ∈ out) (hfits : f.FitsInt) : LaidOut f := by
  obtain ⟨hsize, hdvd, -⟩ := layout_records hout hf
  obtain ⟨-, ⟨-, hstart⟩, ⟨-, hregion⟩⟩ := hfits
  exact ⟨hsize, hdvd, by omega, by omega⟩

namespace LaidOut

variable {f : Func} (h : LaidOut f)

include h

theorem fitsInt (hlow : -2147483648 ≤ f.functionSize) : f.FitsInt := by
  have hsize := le_regionSize f.functionSize
  have h1 := h.start_lt
  have h2 := h.size_lt
  rw [← h.size_eq] at hsize
  refine ⟨⟨hlow, ?_⟩, ⟨?_, ?_⟩, ⟨?_, ?_⟩⟩ <;> omega

theorem toNat_regionStart : f.toLinkFunc.regionStart.toNat = f.regionStart := by
  have := h.start_lt
  exact Nat.mod_eq_of_lt (by omega)

theorem toNat_regionSize : f.toLinkFunc.regionSize.toNat = f.regionSize := by
  have := h.size_lt
  exact Nat.mod_eq_of_lt (by omega)

theorem aligned : f.toLinkFunc.regionStart &&& 0x1F#32 = 0#32 :=
  and_31_of_dvd (h.toNat_regionStart ▸ h.dvd_start)

/-- The SIZE field of the record. -/
theorem exists_toSize : ∃ k, 4 ≤ k ∧ k ≤ 30 ∧ f.regionSize = 2 ^ (k + 1) ∧
    toSize f.toLinkFunc.regionSize = some (BitVec.ofNat 32 k) := by
  have hlt := h.size_lt
  rw [h.size_eq] at hlt
  obtain ⟨k, h4, h30, hk⟩ := exists_field_of_le hlt.le
  rw [← h.size_eq] at hk
  exact ⟨k, h4, h30, hk, toSize_two_pow h4 h30 (h.toNat_regionSize.trans hk)⟩

theorem reachesRegisters : ReachesRegisters f f.toLinkFunc := by
  obtain ⟨k, h4, h30, hk, hto⟩ := h.exists_toSize
  have hal := h.aligned
  have hlt : BitVec.ofNat 32 k < 32#32 := by
    rw [BitVec.lt_def, BitVec.toNat_ofNat]
    exact (Nat.mod_le k _).trans_lt (by rw [show (32#32).toNat = 32 by rfl]; omega)
  refine ⟨rfl, h.toNat_regionStart, h.toNat_regionStart ▸ h.dvd_start, valid_of_aligned hal, k,
    by omega, hto, hk.symm, ?_, fun d num hnum => ?_⟩
  · rw [← hk, h.size_eq]
    exact le_regionSize f.functionSize
  · obtain ⟨hregion, hbank⟩ := mpuConfig_bank hal (BitVec.ofNat 32 k) num d
    refine ⟨hregion, by rw [hbank], ?_, fun h1 => ?_⟩
    · rw [hbank, configRasr_size hlt, BitVec.toNat_ofNat]
      exact Nat.mod_eq_of_lt (by omega)
    · subst h1
      have hview := view_mpuConfig d ⟨f.toLinkFunc.regionStart, BitVec.ofNat 32 k, 1#32, hal, hlt, hnum⟩
      dsimp only at hview
      rw [readCallerAddr_eq, readCallerSize_eq, hview]
      exact ⟨rfl, rfl⟩

end LaidOut

/-- **The laid out size reaches the registers.** For every layout below `2^31`, reading
`Link_addr.txt` back gives a record for every function, in order, whose start and SIZE field are
those of the region, and `MPU_Config` puts them into the bank of the requested region. -/
theorem laidOut_reaches_registers {fs out : List Func} (hout : layout fs = some out)
    (hlow : ∀ f ∈ fs, -2147483648 ≤ f.functionSize)
    (h31 : ∀ f ∈ out, f.regionStart + f.regionSize ≤ 2 ^ 31) :
    ∃ table, readLinkAddr (linkAddrText out) = some table ∧
      List.Forall₂ ReachesRegisters out table := by
  have hkeys := perm_key_of_layout hout
  have hlow' : ∀ f ∈ out, -2147483648 ≤ f.functionSize := fun f hf => by
    obtain ⟨g, hg, heq⟩ := List.mem_map.mp (hkeys.mem_iff.mp (List.mem_map_of_mem hf))
    rw [← (Prod.mk.inj heq).2]
    exact hlow g hg
  have hlaid : ∀ f ∈ out, LaidOut f := fun f hf => laidOut_of_layout hout h31 hf
  refine ⟨_, readLinkAddr_eq_some_iff.mpr
    ⟨fun f hf => (hlaid f hf).fitsInt (hlow' f hf), rfl⟩, ?_⟩
  rw [List.forall₂_map_right_iff, List.forall₂_same]
  exact fun f hf => (hlaid f hf).reachesRegisters

/-! ## The table that `Set_Operand` reads -/

/-- A file that `function_size.py` has laid out and written, as `Set_Operand` reads it. -/
structure LinkTable where
  funcs : List Func
  out : List Func
  table : List LinkFunc
  laid : layout funcs = some out := by decide
  read : readLinkAddr (linkAddrText out) = some table := by decide

namespace LinkTable

variable (T : LinkTable)

/-- The names of the table are those that were measured, in another order. -/
theorem names_perm : (T.table.map LinkFunc.name).Perm (T.funcs.map Func.name) := by
  obtain ⟨-, htable⟩ := readLinkAddr_eq_some_iff.mp T.read
  rw [htable, List.map_map]
  exact perm_name_of_layout T.laid

/-- Every record of the table has an aligned start and a SIZE field. -/
theorem exists_field {g : LinkFunc} (hg : g ∈ T.table) :
    g.regionStart &&& 0x1F#32 = 0#32 ∧ ∃ k, toSize g.regionSize = some k ∧ k < 32#32 := by
  obtain ⟨hfits, htable⟩ := readLinkAddr_eq_some_iff.mp T.read
  rw [htable] at hg
  obtain ⟨f, hf, rfl⟩ := List.mem_map.mp hg
  have hlaid := laidOut_of_fitsInt T.laid hf (hfits f hf)
  obtain ⟨k, -, h30, -, hto⟩ := hlaid.exists_toSize
  refine ⟨hlaid.aligned, _, hto, ?_⟩
  rw [BitVec.lt_def, BitVec.toNat_ofNat]
  exact (Nat.mod_le k _).trans_lt (by rw [show (32#32).toNat = 32 by rfl]; omega)

end LinkTable

/-- The regions of the benchmark reach the registers. -/
theorem laidOut_reaches_registers_pair : ∃ table,
    readLinkAddr (linkAddrText benchmarkLayout) = some table ∧
      List.Forall₂ ReachesRegisters benchmarkLayout table :=
  laidOut_reaches_registers layout_benchmarkPair (by decide) (by decide)

end MpuPasses
