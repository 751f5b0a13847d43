import MpuPasses.Layout
import MpuPasses.Listing

/-!
# The sizes that `function_size.py` measures

The script takes the addresses of the first line and of the last but one line of the region that
the scan found, and calls their distance plus 2 the size of the function. `covers_iff` says when
that many bytes hold the whole function, `functionAddrs_of_after` and `functionAddrs_at_end` which
lines are read.
-/

namespace MpuPasses

open Chars

/-- `start_addr` and `end_addr`. -/
def functionAddrs (lines : List Str) (name : Str) : Option (ℤ × ℤ) :=
  let (firstLine, lastLine) := functionRegion lines name
  let lines := slice lines firstLine lastLine
  let last : ℤ := lines.length
  do
    let startAddr ← (pyGet lines 0).bind lineAddr
    let endAddr ← (pyGet lines (last - 2)).bind lineAddr
    return (startAddr, endAddr)

/-- `funcs[i].function_size`. -/
def functionSizeOf (lines : List Str) (name : Str) : Option ℤ :=
  (functionAddrs lines name).map fun (startAddr, endAddr) => endAddr - startAddr + 2

/-! ## The lines that are read -/

variable {lines : List Str} {f : Symbol}

def Symbol.first (f : Symbol) : Item := f.items.head f.nonempty

def Symbol.last (f : Symbol) : Item := f.items.getLast f.nonempty

/-- The item that the scan stops at. -/
def Symbol.stop (f : Symbol) (last : Option Str) : Item :=
  f.items.get ⟨stopIndex last f.items, stopIndex_lt last f.nonempty⟩

theorem Symbol.itemLines_getElem? (f : Symbol) {i : ℕ} (h : i < f.items.length)
    (rest : List Str) : (f.itemLines ++ rest)[i]? = some f.items[i].line := by
  unfold itemLines
  rw [List.getElem?_append_left (by simpa using h), List.getElem?_map, List.getElem?_eq_getElem h]
  rfl

theorem Symbol.getElem_zero (f : Symbol) (h : 0 < f.items.length) : f.items[0] = f.first :=
  List.getElem_zero h

theorem Symbol.getElem_length_sub_one (f : Symbol) (h : f.items.length - 1 < f.items.length) :
    f.items[f.items.length - 1] = f.last := (List.getLast_eq_getElem f.nonempty).symm

/-- The two addresses, when the region holds at least two lines. -/
theorem Found.functionAddrs_eq (h : Found lines f) {i : ℕ} (hi : i < f.items.length)
    (hlen : ((f.itemLines ++ h.rest).take (stopIndex lines.getLast? f.items + 2)).length = i + 2) :
    functionAddrs lines f.name = some ((f.first.addr : ℤ), (f.items[i].addr : ℤ)) := by
  have hpos := List.length_pos_of_ne_nil f.nonempty
  have hle : i + 2 ≤ stopIndex lines.getLast? f.items + 2 := by
    rw [← hlen]; exact List.length_take_le ..
  have hstart : pyGet ((f.itemLines ++ h.rest).take (stopIndex lines.getLast? f.items + 2)) 0 =
      some f.first.line := by
    rw [show (0 : ℤ) = ((0 : ℕ) : ℤ) from rfl, pyGet_natCast, List.getElem?_take_of_lt (by omega),
      f.itemLines_getElem? hpos, f.getElem_zero]
  have hend : pyGet ((f.itemLines ++ h.rest).take (stopIndex lines.getLast? f.items + 2)) i =
      some f.items[i].line := by
    rw [pyGet_natCast, List.getElem?_take_of_lt (by omega), f.itemLines_getElem? hi]
  unfold functionAddrs
  simp only [h.functionRegion_eq, h.slice_eq]
  rw [hlen, hstart, show ((i + 2 : ℕ) : ℤ) - 2 = (i : ℤ) by push_cast; ring, hend]
  simp [Item.lineAddr_line]

/-- Where a blank line follows, the scan's end is used as the last item. -/
theorem Found.functionAddrs_of_after (h : Found lines f) (hafter : f.after ≠ []) :
    functionAddrs lines f.name = some ((f.first.addr : ℤ), ((f.stop lines.getLast?).addr : ℤ)) := by
  have hstop := stopIndex_lt lines.getLast? f.nonempty
  have hrest := List.length_pos_of_ne_nil (mt h.rest_eq_nil.mp hafter)
  refine h.functionAddrs_eq hstop ?_
  rw [List.length_take, List.length_append, Symbol.itemLines, List.length_map]
  omega

theorem Symbol.addr_lt_of_lt (f : Symbol) {i j : ℕ} (hj : j < f.items.length) (hij : i < j) :
    f.items[i].addr + f.items[i].size ≤ f.items[j].addr :=
  List.pairwise_iff_getElem.mp f.increasing i j (by omega) hj hij

theorem Symbol.stop_eq_last (f : Symbol) {last : Option Str}
    (h : stopIndex last f.items = f.items.length - 1) : f.stop last = f.last := by
  have hlt := stopIndex_lt last f.nonempty
  rw [h] at hlt
  unfold Symbol.stop
  simp only [h]
  exact f.getElem_length_sub_one hlt

theorem Symbol.stop_addr_le (f : Symbol) {last : Option Str}
    (h : stopIndex last f.items ≠ f.items.length - 1) :
    (f.stop last).addr + (f.stop last).size ≤ f.last.addr := by
  have hlt := stopIndex_lt last f.nonempty
  have hle := f.addr_lt_of_lt (i := stopIndex last f.items) (j := f.items.length - 1) (by omega)
    (by omega)
  rw [f.getElem_length_sub_one] at hle
  exact hle

/-- Within a function no two lines read the same. -/
theorem Found.stopIndex_at_end (h : Found lines f) (hafter : f.after = []) :
    stopIndex lines.getLast? f.items = f.items.length - 1 := by
  have hrest := h.rest_eq_nil.mpr hafter
  have hlast : lines.getLast? = some f.last.line := by
    obtain ⟨-, hlast⟩ | hblank := h.ends
    · rw [hlast, List.getLast?_map, List.getLast?_eq_getLast_of_ne_nil f.nonempty]; rfl
    · rw [hrest] at hblank; cases hblank
  rw [stopIndex_eq_iff, hlast]
  intro x hx heq
  obtain ⟨i, hi, rfl⟩ := List.getElem_of_mem hx
  rw [List.length_dropLast] at hi
  have haddr := Item.addr_eq_of_line_eq (Option.some.inj heq)
  rw [List.getElem_dropLast, ← f.getElem_length_sub_one (by omega)] at haddr
  have hlt := f.addr_lt_of_lt (j := f.items.length - 1) (by omega) hi
  have hsize := f.items[i].size_eq
  omega

/-- At the end of the file the last but one line of the region is not the last item. -/
theorem Found.functionAddrs_at_end (h : Found lines f) (hafter : f.after = [])
    (h2 : 2 ≤ f.items.length) : functionAddrs lines f.name =
      some ((f.first.addr : ℤ), (f.items[f.items.length - 2].addr : ℤ)) := by
  refine h.functionAddrs_eq (by omega) ?_
  rw [h.stopIndex_at_end hafter, h.rest_eq_nil.mpr hafter, List.append_nil, List.length_take,
    Symbol.itemLines, List.length_map]
  omega

/-- A function of at least two lines gets a size, wherever it stands in the listing. -/
theorem functionSizeOf_isSome (L : Listing) (hf : f ∈ L.symbols) (h2 : 2 ≤ f.items.length) :
    (functionSizeOf L.lines f.name).isSome := by
  obtain ⟨h⟩ := L.nonempty_found hf
  unfold functionSizeOf
  by_cases hafter : f.after = []
  · rw [h.functionAddrs_at_end hafter h2]
    rfl
  · rw [h.functionAddrs_of_after hafter]
    rfl

/-- Without a header the script fails at `lines[0]`. -/
theorem functionSizeOf_of_not_found {name : Str} (h : ∀ l ∈ lines, ¬ headerText name <:+: l) :
    functionSizeOf lines name = none := by
  unfold functionSizeOf functionAddrs
  rw [functionRegion_of_not_found h]
  dsimp only
  rw [slice, List.take_length, List.drop_length]
  rfl

/-! ## What the size covers -/

/-- The bytes from the first item to the end of the last one. -/
def Symbol.bytes (f : Symbol) : ℤ := f.last.addr + f.last.size - f.first.addr

/-- The measured size holds the function, and so does its region. -/
def Covers (lines : List Str) (f : Symbol) : Prop :=
  ∃ size, functionSizeOf lines f.name = some size ∧ f.bytes ≤ size ∧ f.bytes ≤ regionSize size

theorem Found.functionSizeOf_eq (h : Found lines f) (hafter : f.after ≠ []) :
    functionSizeOf lines f.name =
      some (((f.stop lines.getLast?).addr : ℤ) - f.first.addr + 2) := by
  unfold functionSizeOf
  rw [h.functionAddrs_of_after hafter]
  rfl

theorem Symbol.bytes_pos (f : Symbol) : 0 < f.bytes := by
  have hpos := List.length_pos_of_ne_nil f.nonempty
  have hend := f.last.size_eq
  have hle : f.first.addr ≤ f.last.addr := by
    rw [← f.getElem_zero hpos, ← f.getElem_length_sub_one (by omega)]
    rcases Nat.eq_zero_or_pos (f.items.length - 1) with hone | hmore
    · simp only [hone]
      exact le_rfl
    · exact (Nat.le_add_right _ _).trans (f.addr_lt_of_lt (by omega) hmore)
  unfold bytes
  omega

/-- A scan that gets to a last item of two bytes measures the function. -/
theorem Found.functionSizeOf_eq_bytes (h : Found lines f) (hafter : f.after ≠ [])
    (hlast : f.last.size = 2) (hscan : ∀ x ∈ f.items.dropLast, some x.line ≠ lines.getLast?) :
    functionSizeOf lines f.name = some f.bytes := by
  rw [h.functionSizeOf_eq hafter, f.stop_eq_last ((stopIndex_eq_iff _ _).mpr hscan), Symbol.bytes,
    hlast]
  congr 1
  omega

/-- **What the measured size covers.** Where a blank line follows, the size holds the function
exactly when its last item has 2 bytes and no item before it stops the scan. -/
theorem covers_iff (L : Listing) {f : Symbol} (hf : f ∈ L.symbols) (hafter : f.after ≠ []) :
    Covers L.lines f ↔
      f.last.size = 2 ∧ ∀ x ∈ f.items.dropLast, some x.line ≠ L.lines.getLast? := by
  obtain ⟨h⟩ := L.nonempty_found hf
  rw [← stopIndex_eq_iff]
  constructor
  · rintro ⟨size, hsize, hle, -⟩
    rw [h.functionSizeOf_eq hafter, Option.some.injEq] at hsize
    unfold Symbol.bytes at hle
    have hend := f.last.size_eq
    by_cases heq : stopIndex L.lines.getLast? f.items = f.items.length - 1
    · rw [f.stop_eq_last heq] at hsize
      exact ⟨by omega, heq⟩
    · -- the items after the one that stopped the scan are not measured
      have hlt := f.stop_addr_le heq
      have hmid := (f.stop L.lines.getLast?).size_eq
      omega
  · rintro ⟨hsize, heq⟩
    refine ⟨_, h.functionSizeOf_eq hafter, ?_⟩
    have hbytes : f.bytes ≤ ((f.stop L.lines.getLast?).addr : ℤ) - f.first.addr + 2 := by
      unfold Symbol.bytes
      rw [f.stop_eq_last heq]
      omega
    exact ⟨hbytes, hbytes.trans (le_regionSize _)⟩

/-- An instruction of four bytes. -/
def movwAt (addr : ℕ) (h : ¬ ['>', ':'] <:+: itemLine 1 addr "\tf240 0001 \tmovw\tr0, #1".toList) :
    Item where
  addr := addr
  size := 4
  pad := 1
  text := "\tf240 0001 \tmovw\tr0, #1".toList
  plain := h

/-- A function of 34 bytes, whose last item is a literal word. -/
def wideSymbol : Symbol where
  pad := 1
  addr := 0x8004000
  name := "Sum".toList
  items := [
    movwAt 0x8004000 (by decide), movwAt 0x8004004 (by decide), movwAt 0x8004008 (by decide),
    movwAt 0x800400c (by decide), movwAt 0x8004010 (by decide), movwAt 0x8004014 (by decide),
    movwAt 0x8004018 (by decide),
    { addr := 0x800401c, size := 2, pad := 1, text := "\t4770      \tbx\tlr".toList },
    { addr := 0x800401e, size := 4, pad := 1, text := "\t20000010 \t.word\t0x20000010".toList }]
  after := ["\n".toList]

/-- A function whose last item has two bytes. -/
def narrowSymbol : Symbol where
  pad := 1
  addr := 0x8004022
  name := "main".toList
  items := [
    movwAt 0x8004022 (by decide),
    { addr := 0x8004026, size := 2, pad := 1, text := "\t4770      \tbx\tlr".toList }]
  after := ["\n".toList, "Disassembly of section .text:\n".toList]

def wideListing : Listing where
  preamble := ["\n".toList, "output.elf:     file format elf32-littlearm\n".toList, "\n".toList]
  symbols := [wideSymbol, narrowSymbol]

/-- The script measures 32 bytes and lays out a region of 32 bytes. -/
theorem not_covers_wide : wideSymbol ∈ wideListing.symbols ∧ wideSymbol.after ≠ [] ∧
    functionSizeOf wideListing.lines wideSymbol.name = some 32 ∧ regionSize 32 = 32 ∧
    wideSymbol.bytes = 34 ∧ ¬ Covers wideListing.lines wideSymbol := by
  have hsize : functionSizeOf wideListing.lines wideSymbol.name = some 32 := by decide
  refine ⟨List.mem_cons_self, by decide, hsize, by decide, by decide, ?_⟩
  rintro ⟨size, hsize', hle, -⟩
  rw [hsize, Option.some.injEq] at hsize'
  revert hle; rw [← hsize']; decide

theorem covers_narrow : Covers wideListing.lines narrowSymbol :=
  (covers_iff wideListing (List.mem_cons_of_mem _ List.mem_cons_self) (by decide)).mpr (by decide)

end MpuPasses
