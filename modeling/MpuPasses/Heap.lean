import MpuPasses.Startup

/-!
# The heap

`_sbrk` moves the end of the heap, which starts at the linker symbol `end` and may grow up to the stack
pointer. The end of the heap is a null pointer before the first call. Addresses are added modulo
`2 ^ 32` and compared as unsigned numbers, as the target does it; the increment is signed.

`HeapRun` collects what a program that gives back only memory it holds has been granted.
`sbrk_run` says that this memory is the part of `SRAM` from `end` up to the end of the heap, so that
no call hands out a byte that is still held, or a byte of `.data` or `.bss`.
-/

namespace MpuPasses

open Blocks

/-- The static variable of `_sbrk`, and `errno`. -/
structure Heap where
  heapEnd : BitVec 32
  errno : BitVec 32
  deriving DecidableEq, Repr

/-- `ENOMEM`. -/
def enomem : BitVec 32 := 12#32

/-- The heap after the start-up code has cleared `.bss`. -/
def Heap.cleared : Heap where
  heapEnd := 0
  errno := 0

/-- `_sbrk`, called with stack pointer `sp`: the returned pointer and the new state. -/
def sbrk (y : LinkSymbols) (sp incr : BitVec 32) (h : Heap) : BitVec 32 × Heap :=
  let h := if h.heapEnd = 0 then { h with heapEnd := y.endSym } else h
  let prevHeapEnd := h.heapEnd
  if h.heapEnd + incr > sp then (-1, { h with errno := enomem })
  else (prevHeapEnd, { h with heapEnd := h.heapEnd + incr })

/-- The end of the heap that a call goes on from. -/
def Heap.brk (y : LinkSymbols) (h : Heap) : BitVec 32 := if h.heapEnd = 0 then y.endSym else h.heapEnd

/-! ## What a call does -/

section Call

variable {y : LinkSymbols} {sp incr : BitVec 32} {h : Heap}

/-- The call in terms of the end that it goes on from. -/
theorem sbrk_eq : sbrk y sp incr h =
    if sp < h.brk y + incr then (-1, { heapEnd := h.brk y, errno := enomem })
    else (h.brk y, { h with heapEnd := h.brk y + incr }) := by
  unfold sbrk Heap.brk
  by_cases h0 : h.heapEnd = 0
  · rw [if_pos h0, if_pos h0]
  · rw [if_neg h0, if_neg h0]

theorem sbrk_of_lt (hlt : sp < h.brk y + incr) :
    sbrk y sp incr h = (-1, { heapEnd := h.brk y, errno := enomem }) :=
  sbrk_eq.trans (if_pos hlt)

theorem sbrk_of_le (hle : h.brk y + incr ≤ sp) :
    sbrk y sp incr h = (h.brk y, { h with heapEnd := h.brk y + incr }) :=
  sbrk_eq.trans (if_neg (BitVec.not_lt.mpr hle))

end Call

/-! ## Runs -/

/-- What the program holds after a call that returned `r`: a growing call adds the block from `r` on, a
shrinking call takes the block below `r` away. -/
def heldAfter (incr r : BitVec 32) (held : Set (BitVec 32)) : Set (BitVec 32) :=
  if r = -1 then held
  else if 0 ≤ incr.toInt then held ∪ Cells r incr.toNat
  else held \ Cells (r + incr) (-incr).toNat

/-- The program may make this call: the stack pointer lies in `SRAM` or at its end, and a shrinking call
gives back bytes that are held. -/
structure MayCall (y : LinkSymbols) (sp incr : BitVec 32) (h : Heap) (held : Set (BitVec 32)) : Prop where
  sp_le : sp ≤ stackStart
  gives_back : incr.toInt < 0 → Cells (h.brk y + incr) (-incr).toNat ⊆ held

/-- A state of the heap that some sequence of calls leads to, with what the program holds then. -/
inductive HeapRun (y : LinkSymbols) : Heap → Set (BitVec 32) → Prop
  | cleared : HeapRun y Heap.cleared ∅
  | call {h : Heap} {held : Set (BitVec 32)} {sp incr : BitVec 32} (hrun : HeapRun y h held)
      (hmay : MayCall y sp incr h held) :
      HeapRun y (sbrk y sp incr h).2 (heldAfter incr (sbrk y sp incr h).1 held)

/-- The invariant: the end of the heap lies in `SRAM`, not below `end`, and the bytes between the two
are those that the program holds. -/
structure HeapInv (y : LinkSymbols) (h : Heap) (held : Set (BitVec 32)) : Prop where
  end_le : y.endSym ≤ h.brk y
  brk_le : h.brk y ≤ stackStart
  held_iff : ∀ x, x ∈ held ↔ y.endSym ≤ x ∧ x < h.brk y

/-- What a call promises in a run. -/
structure SbrkMeets (y : LinkSymbols) (sp incr : BitVec 32) (h : Heap) (held : Set (BitVec 32))
    (r : BitVec 32) (h' : Heap) : Prop where
  /-- It fails exactly when the heap would pass the stack pointer. -/
  fails_iff : r = -1 ↔ (sp.toNat : ℤ) < (h.brk y).toNat + incr.toInt
  /-- A failed call leaves the heap as it is. -/
  failed : r = -1 → h'.brk y = h.brk y ∧ h'.errno = enomem
  /-- A block that is handed out lies between `end` and the stack pointer, and no byte of it is held. -/
  granted : r ≠ -1 → 0 ≤ incr.toInt →
    Disjoint (Cells r incr.toNat) held ∧ ∀ x ∈ Cells r incr.toNat, y.endSym ≤ x ∧ x < sp
  /-- What is held afterwards has nothing in common with `.data` and `.bss`. -/
  clear : ∀ x ∈ heldAfter incr r held,
    x ∉ Cells y.sdata y.dataSize.toNat ∧ x ∉ Cells y.sbss y.bssSize.toNat

/-! ## The invariant -/

theorem heapInv_cleared {y : LinkSymbols} (hy : y.Placed) : HeapInv y Heap.cleared ∅ where
  end_le := BitVec.le_refl _
  brk_le := hy.end_le
  held_iff := fun x => by
    refine iff_of_false (Set.notMem_empty x) fun hx => ?_
    exact absurd (BitVec.le_def.mp hx.1) (Nat.not_le.mpr (BitVec.lt_def.mp hx.2))

theorem brk_of_ne_zero {y : LinkSymbols} {h : Heap} (hne : h.heapEnd ≠ 0) : h.brk y = h.heapEnd :=
  if_neg hne

section Inv

variable {y : LinkSymbols} {sp incr : BitVec 32} {h : Heap} {held : Set (BitVec 32)}

/-- An increment that is not negative cannot wrap around. -/
theorem HeapInv.toNat_grow (hinv : HeapInv y h held) (hincr : 0 ≤ incr.toInt) :
    incr.toInt = incr.toNat ∧ (h.brk y + incr).toNat = (h.brk y).toNat + incr.toNat := by
  have hbrk : (h.brk y).toNat ≤ 0x20020000 := hinv.brk_le
  have hlt : 2 * incr.toNat < 2 ^ 32 := BitVec.toInt_pos_iff.mp hincr
  refine ⟨BitVec.toInt_eq_toNat_of_lt hlt, ?_⟩
  rw [BitVec.toNat_add_of_lt (by omega)]

/-- A negative increment gives back at most what is held. -/
theorem HeapInv.toNat_shrink (hinv : HeapInv y h held) (hmay : MayCall y sp incr h held)
    (hincr : incr.toInt < 0) :
    incr.toInt = -((-incr).toNat : ℤ) ∧ y.endSym ≤ h.brk y + incr ∧
      (h.brk y + incr).toNat + (-incr).toNat = (h.brk y).toNat := by
  have hbrk : (h.brk y).toNat ≤ 0x20020000 := hinv.brk_le
  have hlt := incr.isLt
  have hge : 2 ^ 32 ≤ 2 * incr.toNat := BitVec.toInt_neg_iff.mp hincr
  have hneg : (-incr).toNat = 2 ^ 32 - incr.toNat := by
    rw [BitVec.toNat_neg, Nat.mod_eq_of_lt (by omega)]
  have hint : incr.toInt = incr.toNat - 2 ^ 32 := by
    rw [BitVec.toInt_eq_toNat_cond, if_neg (by omega)]
    rfl
  have hlow : h.brk y + incr ∈ held := by
    apply hmay.gives_back hincr
    rw [mem_cells, sub_self]
    show 0 < (-incr).toNat
    omega
  obtain ⟨hend, hbelow⟩ := (hinv.held_iff _).mp hlow
  refine ⟨by omega, hend, ?_⟩
  have hbelow' := BitVec.lt_def.mp hbelow
  rw [BitVec.toNat_add] at hbelow' ⊢
  omega

/-- The new end of a successful call: it is not below `end`, and it has not wrapped around. -/
theorem HeapInv.toInt_next (hinv : HeapInv y h held) (hmay : MayCall y sp incr h held) :
    y.endSym ≤ h.brk y + incr ∧
      ((h.brk y + incr).toNat : ℤ) = (h.brk y).toNat + incr.toInt := by
  rcases lt_or_ge incr.toInt 0 with hneg | hpos
  · obtain ⟨hint, hend, hsum⟩ := hinv.toNat_shrink hmay hneg
    exact ⟨hend, by omega⟩
  · obtain ⟨hint, hsum⟩ := hinv.toNat_grow hpos
    have hend := BitVec.le_def.mp hinv.end_le
    exact ⟨BitVec.le_def.mpr (by omega), by omega⟩

theorem HeapInv.brk_of_end_le (hy : y.Placed) {h' : Heap} (hend : y.endSym ≤ h'.heapEnd) :
    h'.brk y = h'.heapEnd := by
  apply brk_of_ne_zero
  obtain ⟨hsram, hdata, hedata, hbss, hebss, -⟩ := hy.bounds
  have hend' := BitVec.le_def.mp hend
  intro h0
  rw [h0] at hend'
  have hzero : (0 : BitVec 32).toNat = 0 := rfl
  omega

/-- The end of the heap is never the pointer that reports a failure. -/
theorem HeapInv.brk_ne (hinv : HeapInv y h held) : h.brk y ≠ -1 := by
  have hbrk : (h.brk y).toNat ≤ 0x20020000 := hinv.brk_le
  intro heq
  rw [heq] at hbrk
  revert hbrk
  decide

theorem heldAfter_failed (held : Set (BitVec 32)) : heldAfter incr (-1) held = held := if_pos rfl

/-- The bytes held after a successful call are those up to the new end. -/
theorem HeapInv.mem_heldAfter (hinv : HeapInv y h held) (hmay : MayCall y sp incr h held)
    (x : BitVec 32) : x ∈ heldAfter incr (h.brk y) held ↔ y.endSym ≤ x ∧ x < h.brk y + incr := by
  unfold heldAfter
  rw [if_neg hinv.brk_ne]
  have hbrk : (h.brk y).toNat ≤ 0x20020000 := hinv.brk_le
  have hend := BitVec.le_def.mp hinv.end_le
  rcases lt_or_ge incr.toInt 0 with hneg | hpos
  · obtain ⟨hint, hnext, hsum⟩ := hinv.toNat_shrink hmay hneg
    have hnext' := BitVec.le_def.mp hnext
    rw [if_neg (by omega), Set.mem_sdiff, hinv.held_iff, mem_cells_iff (by omega), BitVec.le_def,
      BitVec.lt_def, BitVec.lt_def]
    omega
  · obtain ⟨hint, hsum⟩ := hinv.toNat_grow hpos
    have hlt : 2 * incr.toNat < 2 ^ 32 := BitVec.toInt_pos_iff.mp hpos
    rw [if_pos hpos, Set.mem_union, hinv.held_iff, mem_cells_iff (by omega), BitVec.le_def,
      BitVec.lt_def, BitVec.lt_def]
    omega

/-- **Step lemma.** A call keeps the invariant. -/
theorem HeapInv.call (hy : y.Placed) (hinv : HeapInv y h held) (hmay : MayCall y sp incr h held) :
    HeapInv y (sbrk y sp incr h).2 (heldAfter incr (sbrk y sp incr h).1 held) := by
  obtain ⟨hnext, -⟩ := hinv.toInt_next hmay
  by_cases hlt : sp < h.brk y + incr
  · have hbrk : Heap.brk y { heapEnd := h.brk y, errno := enomem } = h.brk y :=
      HeapInv.brk_of_end_le hy hinv.end_le
    rw [sbrk_of_lt hlt, heldAfter_failed]
    refine ⟨?_, ?_, fun x => ?_⟩
    · rw [hbrk]
      exact hinv.end_le
    · rw [hbrk]
      exact hinv.brk_le
    · rw [hbrk]
      exact hinv.held_iff x
  · have hle : h.brk y + incr ≤ sp := BitVec.not_lt.mp hlt
    have hbrk : Heap.brk y { h with heapEnd := h.brk y + incr } = h.brk y + incr :=
      HeapInv.brk_of_end_le hy hnext
    rw [sbrk_of_le hle]
    refine ⟨?_, ?_, fun x => ?_⟩
    · rw [hbrk]
      exact hnext
    · rw [hbrk]
      exact BitVec.le_trans hle hmay.sp_le
    · rw [hbrk]
      exact hinv.mem_heldAfter hmay x

/-- **Run lemma.** -/
theorem HeapRun.heapInv (hy : y.Placed) (hrun : HeapRun y h held) : HeapInv y h held := by
  induction hrun with
  | cleared => exact heapInv_cleared hy
  | call _ hmay ih => exact ih.call hy hmay

/-- Held bytes lie above `.bss`. -/
theorem HeapInv.clear (hy : y.Placed) (hinv : HeapInv y h held) {x : BitVec 32} (hx : x ∈ held) :
    x ∉ Cells y.sdata y.dataSize.toNat ∧ x ∉ Cells y.sbss y.bssSize.toNat := by
  obtain ⟨-, -, hedata, hbss, hebss, -⟩ := hy.bounds
  have hend := BitVec.le_def.mp ((hinv.held_iff x).mp hx).1
  rw [hy.mem_data, hy.mem_bss, BitVec.lt_def, BitVec.lt_def]
  omega

end Inv

/-- **The heap over any run of calls.** -/
theorem sbrk_run {y : LinkSymbols} (hy : y.Placed) {h : Heap} {held : Set (BitVec 32)}
    (hrun : HeapRun y h held) {sp incr : BitVec 32} (hmay : MayCall y sp incr h held) :
    SbrkMeets y sp incr h held (sbrk y sp incr h).1 (sbrk y sp incr h).2 := by
  have hinv := hrun.heapInv hy
  obtain ⟨hnext, hint⟩ := hinv.toInt_next hmay
  have hclear : ∀ x ∈ heldAfter incr (sbrk y sp incr h).1 held,
      x ∉ Cells y.sdata y.dataSize.toNat ∧ x ∉ Cells y.sbss y.bssSize.toNat :=
    fun x hx => (hinv.call hy hmay).clear hy hx
  by_cases hlt : sp < h.brk y + incr
  · rw [sbrk_of_lt hlt] at hclear ⊢
    have hlt' := BitVec.lt_def.mp hlt
    exact ⟨iff_of_true rfl (by omega), fun _ => ⟨HeapInv.brk_of_end_le hy hinv.end_le, rfl⟩,
      fun hne => absurd rfl hne, hclear⟩
  · have hle : h.brk y + incr ≤ sp := BitVec.not_lt.mp hlt
    rw [sbrk_of_le hle] at hclear ⊢
    have hle' := BitVec.le_def.mp hle
    refine ⟨iff_of_false hinv.brk_ne (by omega), fun hr => absurd hr hinv.brk_ne,
      fun _ hpos => ?_, hclear⟩
    obtain ⟨-, hsum⟩ := hinv.toNat_grow hpos
    have hbrk : (h.brk y).toNat ≤ 0x20020000 := hinv.brk_le
    have hend := BitVec.le_def.mp hinv.end_le
    have hsmall : 2 * incr.toNat < 2 ^ 32 := BitVec.toInt_pos_iff.mp hpos
    have hblock : ∀ x, x ∈ Cells (h.brk y) incr.toNat ↔
        (h.brk y).toNat ≤ x.toNat ∧ x.toNat < (h.brk y).toNat + incr.toNat :=
      fun x => mem_cells_iff (by omega)
    refine ⟨Set.disjoint_left.mpr fun x hx hheld => ?_, fun x hx => ?_⟩
    · have hbelow := BitVec.lt_def.mp ((hinv.held_iff x).mp hheld).2
      have hfrom := ((hblock x).mp hx).1
      omega
    · obtain ⟨hfrom, hto⟩ := (hblock x).mp hx
      exact ⟨BitVec.le_def.mpr (by omega), BitVec.lt_def.mpr (by omega)⟩

/-- A run of the small program: 64 bytes are granted, and the upper 16 of them given back. -/
theorem smallProgram_held :
    HeapRun smallProgram (sbrk smallProgram 0x20001000#32 64#32 Heap.cleared).2
      (heldAfter 64#32 (sbrk smallProgram 0x20001000#32 64#32 Heap.cleared).1 ∅) :=
  .call .cleared ⟨by decide, fun hneg => absurd hneg (by decide)⟩

theorem smallProgram_mayCall :
    MayCall smallProgram 0x20001000#32 (-16#32)
      (sbrk smallProgram 0x20001000#32 64#32 Heap.cleared).2
      (heldAfter 64#32 (sbrk smallProgram 0x20001000#32 64#32 Heap.cleared).1 ∅) := by
  refine ⟨by decide, fun _ x hx => ?_⟩
  have hgrant : (sbrk smallProgram 0x20001000#32 64#32 Heap.cleared).1 = 0x20000020#32 := by decide
  have hbrk : (sbrk smallProgram 0x20001000#32 64#32 Heap.cleared).2.brk smallProgram =
    0x20000060#32 := by decide
  rw [hbrk, mem_cells_iff (by decide)] at hx
  rw [hgrant]
  unfold heldAfter
  rw [if_neg (by decide), if_pos (by decide)]
  right
  rw [mem_cells_iff (by decide)]
  have hlow : (0x20000060#32 + -16#32).toNat = 0x20000050 := by decide
  have hlen : (- -16#32).toNat = 16 := by decide
  have hfrom : (0x20000020#32).toNat = 0x20000020 := rfl
  have hgrown : (64#32).toNat = 64 := rfl
  omega

theorem sbrk_run_smallProgram :
    SbrkMeets smallProgram 0x20001000#32 (-16#32)
      (sbrk smallProgram 0x20001000#32 64#32 Heap.cleared).2
      (heldAfter 64#32 (sbrk smallProgram 0x20001000#32 64#32 Heap.cleared).1 ∅)
      0x20000060#32 { heapEnd := 0x20000050#32, errno := 0 } :=
  sbrk_run smallProgram_placed smallProgram_held smallProgram_mayCall

end MpuPasses
