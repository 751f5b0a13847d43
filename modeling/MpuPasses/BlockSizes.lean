import MpuPasses.Lib.Loop
import MpuPasses.FunctionSize

/-!
# The block loop of `BB_check1.py`

The script scans for a function as `function_size.py` does and walks its lines, recording the size
of a block at every branch or return. `selectsItems_iff` compares the lines that the two scripts
use.
-/

namespace MpuPasses

open Chars

/-! ## The loop -/

/-- `line.split(':', maxsplit=1)[1]`; `none` is an IndexError. -/
def splitColon (line : Str) : Option Str :=
  match line.dropWhile (· ≠ ':') with
  | [] => none
  | _ :: rest => some rest

/-- The test for the end of a block, on the words after the address. A line of two words that is no
branch has no third word to look at. -/
def endsBlock (tmp : List Str) : Option Bool := do
  let br ← tmp[1]?
  if br = "b.n".toList ∨ br = "bx".toList ∨ br = "pop".toList then return true
  else
    let third ← tmp[2]?
    return third = "b.w".toList

/-- The variables of the loop, with the two fields of the function it fills. -/
structure BBState where
  bbStart : ℕ := 0
  bbEnd : ℕ := 0
  bbCnt : ℕ := 0
  bbSize : List ℤ := []
  deriving DecidableEq, Repr

/-- One line of the loop over `lines`. -/
def bbStep (lines : List Str) (s : BBState) (line : Str) : Option BBState := do
  let rest ← splitColon line
  let ends ← endsBlock (pySplit 5 rest)
  if ends then
    let startAddr ← (lines[s.bbStart]?).bind lineAddr
    let endAddr ← (lines[s.bbEnd]?).bind lineAddr
    return { bbStart := s.bbEnd + 1, bbEnd := s.bbEnd + 1, bbCnt := s.bbCnt + 1,
             bbSize := s.bbSize ++ [endAddr - startAddr + 2] }
  else return { s with bbEnd := s.bbEnd + 1 }

/-- `lines[offset:last_line-1]`. -/
def bbLines (lines : List Str) (name : Str) : List Str :=
  let (offset, lastLine) := functionRegion lines name
  slice lines offset (lastLine - 1)

/-- `BB_cnt` and `BB_size` of a function. -/
def bbBlocks (lines : List Str) (name : Str) : Option BBState :=
  Loop.forEach (bbStep (bbLines lines name)) {} (bbLines lines name)

/-- The lines that the loop reaches. -/
def bbVisited (lines : List Str) (name : Str) : List Str :=
  Loop.visited (bbStep (bbLines lines name)) {} (bbLines lines name)

/-! ## The loop over the lines of items -/

variable {lines : List Str} {f : Symbol}

/-- The words after the address. -/
def Item.words (x : Item) : List Str := pySplit 5 (x.text ++ ['\n'])

theorem splitColon_append {key : Str} (h : ':' ∉ key) (s : Str) :
    splitColon (key ++ ':' :: s) = some s := by
  have hkey : ∀ c ∈ key, decide (c ≠ ':') = true := fun c hc =>
    decide_eq_true fun hcolon => h (hcolon ▸ hc)
  unfold splitColon
  rw [List.dropWhile_append_of_pos hkey, List.dropWhile_cons_of_neg (by simp)]

theorem Item.splitColon_line (x : Item) : splitColon x.line = some (x.text ++ ['\n']) := by
  unfold Item.line itemLine
  rw [List.append_assoc, List.append_assoc, List.cons_append, ← List.append_assoc]
  exact splitColon_append (fun h => colon_notMem_address _ _ _ h rfl) _

/-- One step, with the first line of the open block and the current line at hand: it fails only at
the test. -/
theorem bbStep_eq (x : Item) {s : BBState} {a b : Item} (hstart : lines[s.bbStart]? = some a.line)
    (hend : lines[s.bbEnd]? = some b.line) : bbStep lines s x.line =
      (endsBlock x.words).map fun ends =>
        if ends then
          { bbStart := s.bbEnd + 1, bbEnd := s.bbEnd + 1, bbCnt := s.bbCnt + 1,
            bbSize := s.bbSize ++ [(b.addr : ℤ) - a.addr + 2] }
        else { s with bbEnd := s.bbEnd + 1 } := by
  unfold bbStep Item.words
  rw [x.splitColon_line, hstart, hend, Option.bind_some, Option.bind_some, a.lineAddr_line,
    b.lineAddr_line]
  cases hends : endsBlock (pySplit 5 (x.text ++ ['\n'])) with
  | none => simp [hends]
  | some ends => cases ends <;> simp [hends]

/-- The two counters stay inside the lines. -/
theorem bbStep_line (x : Item) {s : BBState} (hstart : s.bbStart ≤ s.bbEnd)
    (hend : s.bbEnd < lines.length) (hlines : ∀ l ∈ lines, ∃ y : Item, l = y.line) :
    ((bbStep lines s x.line).isSome ↔ (endsBlock x.words).isSome) ∧
      ∀ t, bbStep lines s x.line = some t → t.bbStart ≤ t.bbEnd ∧ t.bbEnd = s.bbEnd + 1 := by
  have hread : ∀ i, i ≤ s.bbEnd → ∃ y : Item, lines[i]? = some y.line := by
    intro i hi
    have hlt : i < lines.length := by omega
    obtain ⟨y, hy⟩ := hlines _ (List.getElem_mem hlt)
    exact ⟨y, by rw [List.getElem?_eq_getElem hlt, hy]⟩
  obtain ⟨a, ha⟩ := hread s.bbStart hstart
  obtain ⟨b, hb⟩ := hread s.bbEnd le_rfl
  rw [bbStep_eq x ha hb, Option.isSome_map]
  refine ⟨Iff.rfl, fun t ht => ?_⟩
  obtain ⟨ends, -, rfl⟩ := Option.map_eq_some_iff.mp ht
  cases ends with
  | true => exact ⟨le_rfl, rfl⟩
  | false => exact ⟨Nat.le_succ_of_le hstart, rfl⟩

/-- The loop gets through lines of items exactly when the test fails on none. -/
theorem forEach_itemLines_isSome_iff {items todo : List Item} (hlen : todo.length ≤ items.length) :
    (Loop.forEach (bbStep (items.map Item.line)) {} (todo.map Item.line)).isSome ↔
      ∀ x ∈ todo, (endsBlock x.words).isSome := by
  have hlines : ∀ l ∈ items.map Item.line, ∃ y : Item, l = y.line := by
    intro l hl
    obtain ⟨y, -, rfl⟩ := List.mem_map.mp hl
    exact ⟨y, rfl⟩
  rw [Loop.forEach_map]
  -- the current line is line `bbEnd`
  refine Loop.forEach_isSome_iff
    (fun rest s => s.bbStart ≤ s.bbEnd ∧ s.bbEnd + rest.length ≤ items.length) _ ?_ ?_
  · rintro x rest s ⟨hstart, hend⟩
    rw [List.length_cons] at hend
    have hlt : s.bbEnd < (items.map Item.line).length := by rw [List.length_map]; omega
    obtain ⟨hiff, hkeep⟩ := bbStep_line x hstart hlt hlines
    refine ⟨hiff, fun t ht => ?_⟩
    obtain ⟨hstart', hend'⟩ := hkeep t ht
    exact ⟨hstart', by omega⟩
  · constructor
    · exact le_rfl
    · dsimp only; omega

/-- The loop reaches all lines of items exactly when the test fails on none before the last. -/
theorem visited_itemLines_iff (items : List Item) :
    Loop.visited (bbStep (items.map Item.line)) {} (items.map Item.line) = items.map Item.line ↔
      ∀ x ∈ items.dropLast, (endsBlock x.words).isSome := by
  have hlen : items.dropLast.length ≤ items.length := by rw [List.length_dropLast]; omega
  rw [Loop.visited_eq_self_iff, ← List.map_dropLast]
  exact forEach_itemLines_isSome_iff hlen

/-! ## The lines of a function -/

theorem Found.bbLines_eq (h : Found lines f) :
    bbLines lines f.name = (f.items.take (stopIndex lines.getLast? f.items + 1)).map Item.line := by
  have hstop := stopIndex_lt lines.getLast? f.nonempty
  unfold bbLines
  simp only [h.functionRegion_eq]
  rw [Nat.add_sub_assoc (by omega), h.slice_eq, List.take_append_of_le_length, List.map_take]
  · rfl
  · rw [Symbol.itemLines, List.length_map]; omega

/-- The loop reaches all lines of the function exactly when the scan stops at the last one and the
test fails on none before it. -/
theorem Found.bbVisited_eq_iff (h : Found lines f) : bbVisited lines f.name = f.itemLines ↔
    stopIndex lines.getLast? f.items = f.items.length - 1 ∧
      ∀ x ∈ f.items.dropLast, (endsBlock x.words).isSome := by
  have hpos := List.length_pos_of_ne_nil f.nonempty
  have hstop := stopIndex_lt lines.getLast? f.nonempty
  unfold bbVisited
  rw [h.bbLines_eq]
  constructor
  · intro heq
    have hlen := congrArg List.length heq
    have hle := Loop.length_visited_le
      (bbStep ((f.items.take (stopIndex lines.getLast? f.items + 1)).map Item.line))
      {} ((f.items.take (stopIndex lines.getLast? f.items + 1)).map Item.line)
    rw [hlen, List.length_map, List.length_take, Symbol.itemLines, List.length_map] at hle
    have hlast : stopIndex lines.getLast? f.items = f.items.length - 1 := by omega
    rw [List.take_of_length_le (by omega)] at heq
    exact ⟨hlast, (visited_itemLines_iff f.items).mp heq⟩
  · rintro ⟨hlast, hok⟩
    rw [List.take_of_length_le (by omega)]
    exact (visited_itemLines_iff f.items).mpr hok

/-! ## Both scripts -/

/-- Both scripts use exactly the lines of the items: `function_size.py` takes the addresses of the
first and the last one, `BB_check1.py` goes through all of them. -/
def SelectsItems (lines : List Str) (f : Symbol) : Prop :=
  functionAddrs lines f.name = some ((f.first.addr : ℤ), (f.last.addr : ℤ)) ∧
    bbVisited lines f.name = f.itemLines

/-- **The lines that the scripts select.** They are those of the function exactly when a blank line
follows, no line before the last reads like the end of the file, and `BB_check1.py` finds its third
word on every line before the last. -/
theorem selectsItems_iff (L : Listing) {f : Symbol} (hf : f ∈ L.symbols)
    (h2 : 2 ≤ f.items.length) : SelectsItems L.lines f ↔
      f.after ≠ [] ∧ (∀ x ∈ f.items.dropLast, some x.line ≠ L.lines.getLast?) ∧
        ∀ x ∈ f.items.dropLast, (endsBlock x.words).isSome := by
  obtain ⟨h⟩ := L.nonempty_found hf
  unfold SelectsItems
  rw [h.bbVisited_eq_iff, ← stopIndex_eq_iff]
  constructor
  · rintro ⟨haddrs, hstop, hok⟩
    refine ⟨fun hafter => ?_, hstop, hok⟩
    -- at the end of the file the last item but one is taken for the last
    rw [h.functionAddrs_at_end hafter h2, Option.some.injEq, Prod.mk.injEq] at haddrs
    have hlt := f.addr_lt_of_lt (i := f.items.length - 2) (j := f.items.length - 1) (by omega)
      (by omega)
    have hsize := (f.items[f.items.length - 2]).size_eq
    rw [f.getElem_length_sub_one] at hlt
    omega
  · rintro ⟨hafter, hstop, hok⟩
    refine ⟨?_, hstop, hok⟩
    rw [h.functionAddrs_of_after hafter, f.stop_eq_last hstop]

/-- A function of three instructions. -/
def returningSymbol (name : Str) (after : List Str) (hlt : '<' ∉ name) (hgt : '>' ∉ name)
    (hblank : after = [] ∨ after.head? = some ['\n'])
    (hplain : ∀ l ∈ after, ¬ ['>', ':'] <:+: l) : Symbol where
  pad := 1
  addr := 0x8004000
  name := name
  items := [
    { addr := 0x8004000, size := 2, pad := 1, text := "\tb580      \tpush\t\x7br7, lr\x7d".toList,
      size_eq := size_eq_two },
    { addr := 0x8004002, size := 2, pad := 1, text := "\t2001      \tmovs\tr0, #1".toList,
      size_eq := size_eq_two },
    { addr := 0x8004004, size := 2, pad := 1, text := "\t4770      \tbx\tlr".toList,
      size_eq := size_eq_two }]
  after := after
  name_lt := hlt
  name_gt := hgt
  blank := hblank
  plain := hplain

def sumSymbol : Symbol :=
  returningSymbol "Sum".toList ["\n".toList] wideSymbol.name_lt wideSymbol.name_gt wideSymbol.blank
    wideSymbol.plain

/-- The same lines once more, at the end of the file. -/
def mainSymbol : Symbol :=
  returningSymbol "main".toList [] narrowSymbol.name_lt narrowSymbol.name_gt (by decide) (by decide)

def pairListing : Listing where
  preamble := ["\n".toList, "output.elf:     file format elf32-littlearm\n".toList, "\n".toList]
  symbols := [sumSymbol, mainSymbol]
  plain := wideListing.plain

/-- At the end of the file `function_size.py` takes the second instruction for the last. -/
theorem not_selectsItems_main : mainSymbol ∈ pairListing.symbols ∧
    2 ≤ mainSymbol.items.length ∧ ¬ SelectsItems pairListing.lines mainSymbol := by
  refine ⟨List.mem_cons_of_mem _ List.mem_cons_self, by decide, ?_⟩
  rintro ⟨haddrs, -⟩
  revert haddrs; decide

theorem selectsItems_sum : SelectsItems pairListing.lines sumSymbol :=
  (selectsItems_iff pairListing List.mem_cons_self (by decide)).mpr (by decide)

end MpuPasses
