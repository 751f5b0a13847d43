import MpuPasses.Lib.Blocks

/-!
# Start-up code

`Reset_Handler` runs before `main`: it copies `.data` from its load address to SRAM, byte by byte, and
clears `.bss`. The bounds of the sections are linker symbols, so the loops are stated for any symbols.

`resetHandler_iff` says for which symbols the handler initialises every memory: the copy works its way
up, so the load address may not lie less than the size of `.data` below it. The symbols of the linker
script are of this kind (`LinkSymbols.Placed`).
-/

namespace MpuPasses

open Blocks

/-- Memory, byte by byte. -/
abbrev Memory := BitVec 32 → BitVec 8

/-- The linker symbols whose addresses the start-up code and the heap use. -/
structure LinkSymbols where
  sdata : BitVec 32
  edata : BitVec 32
  laData : BitVec 32
  sbss : BitVec 32
  ebss : BitVec 32
  endSym : BitVec 32

/-- The size of `.data`. -/
def LinkSymbols.dataSize (y : LinkSymbols) : BitVec 32 := y.edata - y.sdata

/-- The size of `.bss`. -/
def LinkSymbols.bssSize (y : LinkSymbols) : BitVec 32 := y.ebss - y.sbss

/-- The memory and the local variables of the handler. -/
structure ResetState where
  mem : Memory
  i : BitVec 32
  pDst : BitVec 32
  pSrc : BitVec 32

/-- `*pDst++ = *pSrc++;` and the step of the loop. -/
def ResetState.copyByte (s : ResetState) : ResetState :=
  { mem := Function.update s.mem s.pDst (s.mem s.pSrc), i := s.i + 1, pDst := s.pDst + 1,
    pSrc := s.pSrc + 1 }

/-- `*pDst++ = 0;` and the step of the loop. -/
def ResetState.zeroByte (s : ResetState) : ResetState :=
  { s with mem := Function.update s.mem s.pDst 0, i := s.i + 1, pDst := s.pDst + 1 }

/-- `for (uint32_t i = 0; i < size; i++)` around one of the two, with a bound on the tests. -/
def resetLoop (body : ResetState → ResetState) (size : BitVec 32) (fuel : ℕ) (s : ResetState) :
    Loop.Outcome ResetState :=
  Loop.run (fun s : ResetState => decide (s.i < size)) (fun s => some (body s)) fuel
    { s with i := 0 }

/-- The two loops of `Reset_Handler`; the memory is the one that `__libc_init_array` and `main` are
called with. -/
def resetHandler (y : LinkSymbols) (fuel : ℕ) (mem : Memory) : Option Memory := do
  let s ← (resetLoop ResetState.copyByte y.dataSize fuel
    { mem := mem, i := 0, pDst := y.sdata, pSrc := y.laData }).final?
  let s ← (resetLoop ResetState.zeroByte y.bssSize fuel { s with pDst := y.sbss }).final?
  some s.mem

/-- What the sections should hold: `.data` its image at the load address and `.bss` zeros. -/
def LinkSymbols.initialised (y : LinkSymbols) (mem : Memory) : Memory :=
  filled (moved mem y.sdata y.laData y.dataSize.toNat) y.sbss y.bssSize.toNat 0

/-! ## The loops -/

theorem zeroLoop_eq (size : BitVec 32) {fuel : ℕ} (hfuel : size.toNat < fuel) (s : ResetState) :
    resetLoop ResetState.zeroByte size fuel s =
      .done { s with mem := filled s.mem s.pDst size.toNat 0, i := size, pDst := s.pDst + size } := by
  let f : BitVec 32 → ResetState := fun k =>
    { s with mem := filled s.mem s.pDst k.toNat 0, i := k, pDst := s.pDst + k }
  have hstart : { s with i := 0 } = f 0#32 := by
    show _ = { s with mem := filled s.mem s.pDst 0 0, i := 0, pDst := s.pDst + 0 }
    rw [filled_zero, add_zero]
  unfold resetLoop
  rw [hstart]
  apply Loop.run_counter f (fun _ => rfl) _ hfuel
  intro k hk
  have hroom : k.toNat + 1 < 2 ^ 32 := Nat.lt_of_le_of_lt hk size.isLt
  show some (ResetState.mk (Function.update (filled s.mem s.pDst k.toNat 0) (s.pDst + k) 0)
    (k + 1) (s.pDst + k + 1) s.pSrc) = some (f (k + 1))
  rw [filled_succ hroom, add_assoc]

section Copy

variable (mem : Memory) (dst src : BitVec 32)

/-- The state of the copy loop after `k` turns, as long as no source byte has been overwritten. -/
def copied (k : BitVec 32) : ResetState :=
  { mem := moved mem dst src k.toNat, i := k, pDst := dst + k, pSrc := src + k }

theorem copied_zero : copied mem dst src 0 = { mem := mem, i := 0, pDst := dst, pSrc := src } := by
  show ResetState.mk (moved mem dst src 0) 0 (dst + 0) (src + 0) = _
  rw [moved_zero, add_zero, add_zero]

variable {mem dst src}

theorem copyByte_copied {k : BitVec 32} (hk : k.toNat + 1 < 2 ^ 32)
    (hsrc : src + k ∉ Cells dst k.toNat) :
    (copied mem dst src k).copyByte = copied mem dst src (k + 1) := by
  show ResetState.mk (Function.update (moved mem dst src k.toNat) (dst + k)
    (moved mem dst src k.toNat (src + k))) (k + 1) (dst + k + 1) (src + k + 1) = _
  rw [moved_succ hk hsrc, add_assoc, add_assoc]
  rfl

/-- The source byte of a turn is still there, unless the destination lies a little above. -/
theorem source_not_mem {size : BitVec 32} (h : dst = src ∨ size ≤ dst - src) {k : BitVec 32}
    (hk : k < size) : src + k ∉ Cells dst k.toNat := by
  have hk' := BitVec.lt_def.mp hk
  rw [mem_cells]
  rcases h with rfl | h
  · rw [add_sub_cancel_left]
    exact Nat.lt_irrefl _
  · have hgap := BitVec.le_def.mp h
    have hd := (dst - src).isLt
    rw [show src + k - dst = k - (dst - src) by rw [sub_sub_eq_add_sub, BitVec.add_comm],
      BitVec.toNat_sub]
    rw [show 2 ^ 32 - (dst - src).toNat + k.toNat = k.toNat + (2 ^ 32 - (dst - src).toNat) by omega,
      Nat.mod_eq_of_lt (by omega)]
    omega

theorem copyLoop_eq {size : BitVec 32} (h : dst = src ∨ size ≤ dst - src) {fuel : ℕ}
    (hfuel : size.toNat < fuel) :
    resetLoop ResetState.copyByte size fuel { mem := mem, i := 0, pDst := dst, pSrc := src } =
      .done (copied mem dst src size) := by
  unfold resetLoop
  rw [← copied_zero]
  apply Loop.run_counter (copied mem dst src) (fun _ => rfl) _ hfuel
  intro k hk
  rw [copyByte_copied (Nat.lt_of_le_of_lt hk size.isLt) (source_not_mem h hk)]

variable (mem dst src) in
/-- The copy onto a destination a little above the source: up to turn `dst - src` no source byte has been
overwritten, and from then on the byte at that distance is the one that the first turn has written. -/
def Overlapped (s : ResetState) : Prop :=
  (s.i ≤ dst - src ∧ s = copied mem dst src s.i) ∨
    (dst - src < s.i ∧ s.pDst = dst + s.i ∧ s.mem (dst + (dst - src)) = mem src)

theorem overlapped_copyByte (hne : dst ≠ src) {s : ResetState} (hroom : s.i.toNat + 1 < 2 ^ 32)
    (hs : Overlapped mem dst src s) : Overlapped mem dst src s.copyByte := by
  have hsucc : (s.i + 1).toNat = s.i.toNat + 1 := Loop.toNat_succ hroom
  rcases hs with ⟨hle, hs⟩ | ⟨hlt, hdst, hmem⟩
  · rcases Nat.lt_or_ge s.i.toNat (dst - src).toNat with hi | hi
    · left
      refine ⟨BitVec.le_def.mpr (by show (s.i + 1).toNat ≤ _; omega), ?_⟩
      have hsrc := source_not_mem (Or.inr (BitVec.le_refl (dst - src))) hi
      conv_lhs => rw [hs]
      exact copyByte_copied hroom hsrc
    · right
      have hig : s.i = dst - src := BitVec.eq_of_toNat_eq (Nat.le_antisymm (BitVec.le_def.mp hle) hi)
      refine ⟨BitVec.lt_def.mpr (by show _ < (s.i + 1).toNat; omega), ?_, ?_⟩
      · rw [hs]
        exact add_assoc dst s.i 1
      · have hpos : dst ∈ Cells dst (dst - src).toNat := by
          rw [mem_cells, sub_self]
          exact Nat.pos_of_ne_zero fun h0 => hne (sub_eq_zero.mp (BitVec.eq_of_toNat_eq h0))
        rw [hs, hig]
        let m := moved mem dst src (dst - src).toNat
        show Function.update m (dst + (dst - src)) (m (src + (dst - src))) (dst + (dst - src)) = _
        rw [Function.update_self, add_sub_cancel]
        show moved mem dst src (dst - src).toNat dst = _
        rw [moved_of_mem hpos, sub_self, add_zero]
  · right
    have hlt' := BitVec.lt_def.mp hlt
    refine ⟨BitVec.lt_def.mpr (by show _ < (s.i + 1).toNat; omega), ?_, ?_⟩
    · show s.pDst + 1 = dst + (s.i + 1)
      rw [hdst, add_assoc]
    · show Function.update s.mem s.pDst _ (dst + (dst - src)) = _
      rw [Function.update_of_ne, hmem]
      rw [hdst]
      intro heq
      rw [add_left_cancel heq] at hlt'
      exact Nat.lt_irrefl _ hlt'

/-- With the destination a little above the source, the first byte of the source turns up again at the
distance of the two. -/
theorem copyLoop_overlap {size : BitVec 32} (hgap : dst - src < size) (hne : dst ≠ src) {fuel : ℕ}
    {t : ResetState}
    (hrun : resetLoop ResetState.copyByte size fuel
      { mem := mem, i := 0, pDst := dst, pSrc := src } = .done t) :
    t.mem (dst + (dst - src)) = mem src := by
  have hstart : Overlapped mem dst src { mem := mem, i := 0, pDst := dst, pSrc := src } :=
    Or.inl ⟨BitVec.le_def.mpr (Nat.zero_le _), (copied_zero mem dst src).symm⟩
  have hstep : ∀ s s' : ResetState, Overlapped mem dst src s → decide (s.i < size) = true →
      some s.copyByte = some s' → Overlapped mem dst src s' := by
    rintro s _ hs hguard ⟨⟩
    exact overlapped_copyByte hne (Nat.lt_of_le_of_lt (of_decide_eq_true hguard) size.isLt) hs
  obtain ⟨hend, hstop⟩ := Loop.run_invariant _ hstep hstart hrun
  have hle : size ≤ t.i := BitVec.not_lt.mp (of_decide_eq_false hstop)
  rcases hend with ⟨hi, -⟩ | ⟨-, -, hmem⟩
  · exact absurd (Nat.lt_of_lt_of_le hgap hle) (Nat.not_lt.mpr hi)
  · exact hmem

/-- The copy loop ends for any addresses. -/
theorem copyLoop_ends (size : BitVec 32) {fuel : ℕ} (hfuel : size.toNat < fuel) (s : ResetState) :
    ∃ t, resetLoop ResetState.copyByte size fuel s = .done t := by
  have hstep : ∀ s : ResetState, True → decide (s.i < size) = true →
      ∃ t, some s.copyByte = some t ∧ True ∧ size.toNat - t.i.toNat < size.toNat - s.i.toNat := by
    intro s _ hguard
    have hi : s.i < size := of_decide_eq_true hguard
    have hi' := BitVec.lt_def.mp hi
    have hsucc : (s.i + 1).toNat = s.i.toNat + 1 :=
      Loop.toNat_succ (Nat.lt_of_le_of_lt hi size.isLt)
    refine ⟨s.copyByte, rfl, trivial, ?_⟩
    show size.toNat - (s.i + 1).toNat < size.toNat - s.i.toNat
    omega
  have hstart : size.toNat - ({ s with i := 0 } : ResetState).i.toNat < fuel := by
    show size.toNat - 0 < fuel
    omega
  obtain ⟨t, ht, -⟩ := Loop.exists_run_eq_done (fun _ => True)
    (fun s : ResetState => size.toNat - s.i.toNat) hstep trivial hstart
  exact ⟨t, ht⟩

end Copy

/-! ## The linker script -/

/-- The copy cannot run into its own source. -/
def LinkSymbols.Copyable (y : LinkSymbols) : Prop :=
  y.sdata = y.laData ∨ y.dataSize ≤ y.sdata - y.laData

instance (y : LinkSymbols) : Decidable y.Copyable :=
  inferInstanceAs (Decidable (_ ∨ _))

/-- The bounds of `FLASH` and `SRAM`; `STACK_START` is the end of `SRAM`. -/
def flashStart : BitVec 32 := 0x08000000#32

def flashEnd : BitVec 32 := 0x08100000#32

def sramStart : BitVec 32 := 0x20000000#32

def stackStart : BitVec 32 := 0x20020000#32

/-- Symbols as the linker script places them: `.data` and `.bss` follow each other in `SRAM`, `end`
closes them, and the image of `.data` lies in `FLASH`. -/
structure LinkSymbols.Placed (y : LinkSymbols) : Prop where
  sram_le : sramStart ≤ y.sdata
  data_le : y.sdata ≤ y.edata
  edata_le : y.edata ≤ y.sbss
  bss_le : y.sbss ≤ y.ebss
  ebss_le : y.ebss ≤ y.endSym
  end_le : y.endSym ≤ stackStart
  flash_le : flashStart ≤ y.laData
  image_le : y.laData.toNat + y.dataSize.toNat ≤ flashEnd.toNat

namespace LinkSymbols.Placed

variable {y : LinkSymbols} (h : y.Placed)

include h

theorem toNat_dataSize : y.dataSize.toNat = y.edata.toNat - y.sdata.toNat :=
  BitVec.toNat_sub_of_le h.data_le

theorem toNat_bssSize : y.bssSize.toNat = y.ebss.toNat - y.sbss.toNat :=
  BitVec.toNat_sub_of_le h.bss_le

/-- The order of the symbols, as numbers. -/
theorem bounds : 0x20000000 ≤ y.sdata.toNat ∧ y.sdata.toNat ≤ y.edata.toNat ∧
    y.edata.toNat ≤ y.sbss.toNat ∧ y.sbss.toNat ≤ y.ebss.toNat ∧ y.ebss.toNat ≤ y.endSym.toNat ∧
      y.endSym.toNat ≤ 0x20020000 :=
  ⟨h.sram_le, h.data_le, h.edata_le, h.bss_le, h.ebss_le, h.end_le⟩

theorem mem_data {x : BitVec 32} :
    x ∈ Cells y.sdata y.dataSize.toNat ↔ y.sdata ≤ x ∧ x < y.edata := by
  obtain ⟨-, hdata, hedata, hbss, hebss, hend⟩ := h.bounds
  rw [mem_cells_iff (by rw [h.toNat_dataSize]; omega), h.toNat_dataSize, BitVec.le_def, BitVec.lt_def]
  omega

theorem mem_bss {x : BitVec 32} : x ∈ Cells y.sbss y.bssSize.toNat ↔ y.sbss ≤ x ∧ x < y.ebss := by
  obtain ⟨-, -, -, hbss, hebss, hend⟩ := h.bounds
  rw [mem_cells_iff (by rw [h.toNat_bssSize]; omega), h.toNat_bssSize, BitVec.le_def, BitVec.lt_def]
  omega

theorem apart : Disjoint (Cells y.sdata y.dataSize.toNat) (Cells y.sbss y.bssSize.toNat) := by
  refine Set.disjoint_left.mpr fun x hx hx' => ?_
  have hlt := BitVec.lt_def.mp (h.mem_data.mp hx).2
  have hle := BitVec.le_def.mp (h.mem_bss.mp hx').1
  have hedata := BitVec.le_def.mp h.edata_le
  omega

/-- `FLASH` lies below `SRAM` by more than `SRAM` is long. -/
theorem copyable : y.Copyable := by
  obtain ⟨hsram, hdata, hedata, hbss, hebss, hend⟩ := h.bounds
  have himage : y.laData.toNat + y.dataSize.toNat ≤ 0x08100000 := h.image_le
  have hle : y.laData ≤ y.sdata := BitVec.le_def.mpr (by omega)
  right
  rw [BitVec.le_def, BitVec.toNat_sub_of_le hle, h.toNat_dataSize]
  omega

end LinkSymbols.Placed

/-- A program with 16 bytes of `.data` and 16 of `.bss`. -/
def smallProgram : LinkSymbols where
  sdata := 0x20000000#32
  edata := 0x20000010#32
  laData := 0x08005000#32
  sbss := 0x20000010#32
  ebss := 0x20000020#32
  endSym := 0x20000020#32

theorem smallProgram_placed : smallProgram.Placed := by
  constructor <;> decide

/-! ## The handler -/

section Handler

variable {y : LinkSymbols} {fuel : ℕ}

/-- Whatever the copy leaves, the handler clears `.bss` in it. -/
theorem resetHandler_of_copy (hbss : y.bssSize.toNat < fuel) {mem : Memory} {t : ResetState}
    (ht : resetLoop ResetState.copyByte y.dataSize fuel
      { mem := mem, i := 0, pDst := y.sdata, pSrc := y.laData } = .done t) :
    resetHandler y fuel mem = some (filled t.mem y.sbss y.bssSize.toNat 0) := by
  unfold resetHandler
  rw [ht]
  show ((resetLoop ResetState.zeroByte y.bssSize fuel { t with pDst := y.sbss }).final?.bind
    fun s => some s.mem) = _
  rw [zeroLoop_eq y.bssSize hbss]
  rfl

theorem resetHandler_eq (hdata : y.dataSize.toNat < fuel) (hbss : y.bssSize.toNat < fuel)
    (h : y.Copyable) (mem : Memory) : resetHandler y fuel mem = some (y.initialised mem) :=
  resetHandler_of_copy hbss (copyLoop_eq h hdata)

/-- A memory that tells two addresses apart. -/
theorem exists_memory_ne {a b : BitVec 32} (h : a ≠ b) : ∃ mem : Memory, mem a ≠ mem b := by
  refine ⟨Function.update (fun _ => 0) a 1, ?_⟩
  rw [Function.update_self, Function.update_of_ne h.symm]
  decide

/-- **Start-up.** With `.bss` apart from `.data`, the handler leaves every memory initialised exactly
when the image of `.data` does not begin less than its size below `.data`. -/
theorem resetHandler_iff (y : LinkSymbols) {fuel : ℕ} (hdata : y.dataSize.toNat < fuel)
    (hbss : y.bssSize.toNat < fuel)
    (hapart : Disjoint (Cells y.sdata y.dataSize.toNat) (Cells y.sbss y.bssSize.toNat)) :
    (∀ mem, resetHandler y fuel mem = some (y.initialised mem)) ↔ y.Copyable := by
  constructor
  · intro hall
    by_contra hnot
    obtain ⟨hne, hgap⟩ := not_or.mp hnot
    have hlt : y.sdata - y.laData < y.dataSize := BitVec.not_le.mp hgap
    obtain ⟨mem, hmem⟩ := exists_memory_ne hne
    obtain ⟨t, ht⟩ := copyLoop_ends y.dataSize hdata
      { mem := mem, i := 0, pDst := y.sdata, pSrc := y.laData }
    have hdst : y.sdata + (y.sdata - y.laData) ∈ Cells y.sdata y.dataSize.toNat :=
      add_mem_cells.mpr hlt
    have hclear := Set.disjoint_left.mp hapart hdst
    have hsame := (resetHandler_of_copy hbss ht).symm.trans (hall mem)
    have hbyte := congrFun (Option.some.inj hsame) (y.sdata + (y.sdata - y.laData))
    unfold LinkSymbols.initialised at hbyte
    rw [filled_of_not_mem hclear, filled_of_not_mem hclear, moved_of_mem hdst,
      copyLoop_overlap hlt hne ht, add_sub_cancel_left, add_sub_cancel] at hbyte
    exact hmem hbyte.symm
  · exact fun h mem => resetHandler_eq hdata hbss h mem

theorem resetHandler_iff_smallProgram :
    (∀ mem, resetHandler smallProgram 17 mem = some (smallProgram.initialised mem)) ↔
      smallProgram.Copyable :=
  resetHandler_iff smallProgram (by decide) (by decide) smallProgram_placed.apart

end Handler

/-- **Start-up at the addresses of the linker script.** `.bss` is zero, `.data` holds its image, and
every other byte, `FLASH` and the rest of `SRAM`, is as it was. -/
theorem resetHandler_placed {y : LinkSymbols} (h : y.Placed) {fuel : ℕ} (hfuel : 0x20000 < fuel)
    (mem : Memory) :
    resetHandler y fuel mem = some fun x =>
      if y.sbss ≤ x ∧ x < y.ebss then 0
      else if y.sdata ≤ x ∧ x < y.edata then mem (y.laData + (x - y.sdata))
      else mem x := by
  obtain ⟨hsram, hdata, hedata, hbss, hebss, hend⟩ := h.bounds
  rw [resetHandler_eq (by rw [h.toNat_dataSize]; omega) (by rw [h.toNat_bssSize]; omega) h.copyable]
  congr 1
  funext x
  unfold LinkSymbols.initialised filled moved
  simp only [h.mem_bss, h.mem_data]

end MpuPasses
