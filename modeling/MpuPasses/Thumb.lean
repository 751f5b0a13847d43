import MpuPasses.BlockSizes

/-!
# Thumb code in a listing

Of an instruction `objdump -d` prints one or two halfwords, the mnemonic and, if it has any, the
operands; a literal word reads like an instruction of one field. The test for the end of a block looks
at the second and the third word (`Insn.endsBlock_words`). A run of zero bytes is a line of dots without
an address (`Row.zeros`). `runsOverAll_iff` says when the block loop gets through a function.
-/

namespace MpuPasses

open Chars

/-! ## The format -/

/-- A number in a field of a fixed width. -/
def hexField (width n : ℕ) : Str := (Nat.toDigits 16 n).leftpad width '0'

/-- The bytes that a line shows. -/
inductive Encoding
  | narrow (h : BitVec 16)
  | wide (h₁ h₂ : BitVec 16)
  | literal (w : BitVec 32)
  deriving DecidableEq, Repr

def Encoding.size : Encoding → ℕ
  | narrow _ => 2
  | wide _ _ => 4
  | literal _ => 4

def Encoding.text : Encoding → Str
  | narrow h => hexField 4 h.toNat
  | wide h₁ h₂ => hexField 4 h₁.toNat ++ ' ' :: hexField 4 h₂.toNat
  | literal w => hexField 8 w.toNat

/-- What follows the mnemonic. -/
def operandText (operands : Str) : Str := if operands = [] then [] else '\t' :: operands

/-- What follows the address and the colon. -/
def insnText (enc : Encoding) (mnemonic operands : Str) : Str :=
  '\t' :: (enc.text.rightpad 10 ' ' ++ '\t' :: (mnemonic ++ operandText operands))

/-- The text up to a space. -/
def firstWord (s : Str) : Str := s.takeWhile fun c => !isSpace c

/-- The branches and returns of two bytes. -/
def shortEnds : List Str := ["b.n".toList, "bx".toList, "pop".toList]

/-- The branch of four bytes. -/
def longEnd : Str := "b.w".toList

/-- What stands beside an encoding. A suffix tells the width of a branch, a literal shows its
value, and no operand reads like a branch. -/
def Encoding.Allows (mnemonic operands : Str) : Encoding → Prop
  | narrow _ => mnemonic ≠ longEnd ∧ firstWord operands ≠ longEnd
  | wide _ _ => mnemonic ∉ shortEnds
  | literal _ => mnemonic = ".word".toList ∧ operands ≠ [] ∧ firstWord operands ≠ longEnd

instance (mnemonic operands : Str) : DecidablePred (Encoding.Allows mnemonic operands) := fun enc => by
  cases enc <;> unfold Encoding.Allows <;> infer_instance

/-- A line with an instruction or a literal word. -/
structure Insn where
  addr : ℕ
  pad : ℕ
  enc : Encoding
  mnemonic : Str
  operands : Str
  mnemonic_ne : mnemonic ≠ [] := by decide
  mnemonic_space : mnemonic.any isSpace = false := by decide
  operands_space : operands.head?.any isSpace = false := by decide
  allowed : enc.Allows mnemonic operands := by decide
  plain : ¬ ['>', ':'] <:+: itemLine pad addr (insnText enc mnemonic operands) := by decide

theorem Encoding.size_eq (enc : Encoding) : enc.size = 2 ∨ enc.size = 4 := by
  cases enc
  · exact .inl rfl
  · exact .inr rfl
  · exact .inr rfl

def Insn.size (i : Insn) : ℕ := i.enc.size

def Insn.item (i : Insn) : Item where
  addr := i.addr
  size := i.size
  pad := i.pad
  text := insnText i.enc i.mnemonic i.operands
  size_eq := i.enc.size_eq
  plain := i.plain

def Insn.line (i : Insn) : Str := i.item.line

/-- A branch or return that ends a block. -/
def Insn.IsTerminator (i : Insn) : Prop := i.mnemonic ∈ shortEnds ∨ i.mnemonic = longEnd

instance : DecidablePred Insn.IsTerminator := fun i => by
  unfold Insn.IsTerminator; infer_instance

/-- Two bytes without operands that are no branch: the line has no third word. -/
def Insn.LacksThird (i : Insn) : Prop :=
  i.size = 2 ∧ i.operands = [] ∧ i.mnemonic ∉ shortEnds

instance : DecidablePred Insn.LacksThird := fun i => by unfold Insn.LacksThird; infer_instance

/-! ## The words of a line -/

theorem exists_digitChar_of_mem_hexField {width n : ℕ} {c : Char} (h : c ∈ hexField width n) :
    ∃ d < 16, c = Nat.digitChar d := by
  unfold hexField List.leftpad at h
  rcases List.mem_append.mp h with h | h
  · exact ⟨0, by omega, List.eq_of_mem_replicate h⟩
  · exact exists_digitChar_of_mem (by omega) h

theorem isSpace_of_mem_hexField {width n : ℕ} : ∀ c ∈ hexField width n, isSpace c = false := by
  intro c hc
  obtain ⟨d, hd, rfl⟩ := exists_digitChar_of_mem_hexField hc
  exact (plain_digitChar hd).space

theorem hexField_ne_nil (width n : ℕ) : hexField width n ≠ [] := by
  unfold hexField List.leftpad
  exact List.append_ne_nil_of_right_ne_nil _ Nat.toDigits_ne_nil

/-- A halfword does not read like a branch. -/
theorem hexField_notMem_shortEnds (width n : ℕ) : hexField width n ∉ shortEnds := by
  -- each of these words has a character that is no digit
  have hdigit : ∀ d < 16, Nat.digitChar d ≠ 'n' ∧ Nat.digitChar d ≠ 'x' ∧ Nat.digitChar d ≠ 'o' := by
    decide
  have hfield : ∀ c ∈ hexField width n, c ≠ 'n' ∧ c ≠ 'x' ∧ c ≠ 'o' := by
    intro c hc
    obtain ⟨d, hd, rfl⟩ := exists_digitChar_of_mem_hexField hc
    exact hdigit d hd
  generalize hexField width n = w at hfield
  intro h
  simp only [shortEnds, List.mem_cons, List.not_mem_nil, or_false] at h
  rcases h with rfl | rfl | rfl
  · exact (hfield 'n' (by simp)).1 rfl
  · exact (hfield 'x' (by simp)).2.1 rfl
  · exact (hfield 'o' (by simp)).2.2 rfl

/-- The fields of an encoding, with the space up to the mnemonic. -/
theorem pySplit_field {w : Str} (hne : w ≠ []) (hw : ∀ c ∈ w, isSpace c = false) (k n : ℕ) (s : Str) :
    pySplit (n + 1) (w ++ (List.replicate k ' ' ++ '\t' :: s)) = w :: pySplit n s := by
  have hspace : ∀ c ∈ List.replicate k ' ' ++ ['\t'], isSpace c = true := by
    intro c hc
    rcases List.mem_append.mp hc with hc | hc
    · rw [List.eq_of_mem_replicate hc]; rfl
    · rw [List.mem_singleton.mp hc]; rfl
  have hhead : ∀ c ∈ (List.replicate k ' ' ++ '\t' :: s).head?, isSpace c = true := by
    cases k with
    | zero => rintro c hc; cases hc; rfl
    | succ k => rintro c hc; cases hc; rfl
  rw [pySplit_word hne hw hhead, List.append_cons, pySplit_pad hspace]

theorem pySplit_mnemonic {m operands : Str} (hne : m ≠ []) (hm : m.any isSpace = false) (n : ℕ) :
    pySplit (n + 1) (m ++ (operandText operands ++ ['\n'])) = m :: pySplit n (operands ++ ['\n']) := by
  have hword : ∀ c ∈ m, isSpace c = false := by simpa using hm
  unfold operandText
  split_ifs with h
  · rw [h]
    exact pySplit_word hne hword (by rintro c hc; cases hc; rfl) n
  · have hhead : ∀ c ∈ ('\t' :: operands ++ ['\n']).head?, isSpace c = true := by
      rintro c hc; cases hc; rfl
    rw [pySplit_word hne hword hhead, List.cons_append, pySplit_cons_space rfl]

theorem pySplit_operands {operands : Str} (hne : operands ≠ [])
    (hspace : operands.head?.any isSpace = false) (n : ℕ) :
    ∃ ws, pySplit (n + 1) (operands ++ ['\n']) = firstWord operands :: ws := by
  obtain ⟨c, s, rfl⟩ := List.exists_cons_of_ne_nil hne
  have hc : isSpace c = false := hspace
  have hend : (s ++ ['\n']).takeWhile (fun d => !isSpace d) = s.takeWhile fun d => !isSpace d := by
    rw [List.takeWhile_append]
    split_ifs with hlen
    · have hall := List.takeWhile_prefix (l := s) (fun d => !isSpace d)
      rw [hall.eq_of_length hlen]
      exact List.append_nil s
    · rfl
  refine ⟨pySplit n ((s ++ ['\n']).dropWhile fun d => !isSpace d), ?_⟩
  rw [List.cons_append, pySplit_cons hc, hend, firstWord, List.takeWhile_cons_of_pos (by simp [hc])]

namespace Insn

variable (i : Insn)

theorem words_eq : i.item.words =
    pySplit 5 (i.enc.text ++ (List.replicate (10 - i.enc.text.length) ' ' ++
      '\t' :: (i.mnemonic ++ (operandText i.operands ++ ['\n'])))) := by
  refine Eq.trans ?_ (pySplit_cons_space (c := '\t') rfl 5 _)
  unfold Item.words item insnText List.rightpad
  simp

/-- The encoding is one word, of two bytes or of a literal. -/
theorem words_of_field {width n : ℕ} (htext : i.enc.text = hexField width n) : i.item.words =
    hexField width n :: i.mnemonic :: pySplit 3 (i.operands ++ ['\n']) := by
  rw [words_eq, htext, pySplit_field (hexField_ne_nil _ _) isSpace_of_mem_hexField,
    pySplit_mnemonic i.mnemonic_ne i.mnemonic_space]

theorem words_wide {h₁ h₂ : BitVec 16} (henc : i.enc = .wide h₁ h₂) : i.item.words =
    hexField 4 h₁.toNat :: hexField 4 h₂.toNat :: i.mnemonic :: pySplit 2 (i.operands ++ ['\n']) := by
  have hhead : ∀ s, ∀ c ∈ (' ' :: s : Str).head?, isSpace c = true := by
    rintro s c hc; cases hc; rfl
  rw [words_eq, henc, Encoding.text, List.append_assoc, List.cons_append,
    pySplit_word (hexField_ne_nil _ _) isSpace_of_mem_hexField (hhead _), pySplit_cons_space rfl,
    pySplit_field (hexField_ne_nil _ _) isSpace_of_mem_hexField,
    pySplit_mnemonic i.mnemonic_ne i.mnemonic_space]

end Insn

/-! ## The test for the end of a block -/

theorem endsBlock_cons (w m : Str) (ws : List Str) : endsBlock (w :: m :: ws) =
    if m ∈ shortEnds then some true else ws.head?.map fun third => decide (third = longEnd) := by
  have hmem : m ∈ shortEnds ↔ m = "b.n".toList ∨ m = "bx".toList ∨ m = "pop".toList := by
    simp [shortEnds]
  unfold endsBlock
  simp only [hmem, List.getElem?_cons_succ, List.getElem?_cons_zero, Option.bind_eq_bind,
    Option.bind_some]
  split_ifs with h
  · rfl
  · cases ws <;> rfl

/-- **The test for the end of a block.** It fails on a line without a third word, and else it finds
the terminators. -/
theorem Insn.endsBlock_words (i : Insn) : endsBlock i.item.words =
    if i.LacksThird then none else some (decide i.IsTerminator) := by
  have hallowed := i.allowed
  have hends : i.IsTerminator ↔ i.mnemonic ∈ shortEnds ∨ i.mnemonic = longEnd := Iff.rfl
  have hlacks : i.LacksThird ↔ i.enc.size = 2 ∧ i.operands = [] ∧ i.mnemonic ∉ shortEnds := Iff.rfl
  cases henc : i.enc with
  | narrow h =>
    rw [henc] at hallowed hlacks
    obtain ⟨hlong, hfirst⟩ := hallowed
    have hwords := i.words_of_field (n := h.toNat) (congrArg Encoding.text henc)
    rw [hwords, endsBlock_cons]
    by_cases hshort : i.mnemonic ∈ shortEnds
    · simp [hlacks, hends, hshort]
    · by_cases hops : i.operands = []
      · rw [hops, pySplit_of_blank (by simp [isSpace])]
        simp [hlacks, hops, hshort, Encoding.size]
      · obtain ⟨ws, hws⟩ := pySplit_operands hops i.operands_space 2
        rw [hws]
        simp [hlacks, hends, hshort, hops, hlong, hfirst]
  | wide h₁ h₂ =>
    rw [henc] at hallowed hlacks
    have hshort : i.mnemonic ∉ shortEnds := hallowed
    rw [i.words_wide henc, endsBlock_cons, if_neg (hexField_notMem_shortEnds _ _)]
    simp [hlacks, hends, hshort, Encoding.size]
  | literal w =>
    rw [henc] at hallowed hlacks
    obtain ⟨hword, hops, hfirst⟩ := hallowed
    have hplain : i.mnemonic ∉ shortEnds ∧ i.mnemonic ≠ longEnd := by rw [hword]; decide
    obtain ⟨ws, hws⟩ := pySplit_operands hops i.operands_space 2
    have hwords := i.words_of_field (n := w.toNat) (congrArg Encoding.text henc)
    rw [hwords, endsBlock_cons, if_neg hplain.1, hws]
    simp [hlacks, hends, hplain, hfirst, Encoding.size]

/-! ## Listings with runs of zero bytes -/

/-- What `objdump -d` prints in place of eight or more zero bytes, two zero literal words for instance,
or of one or two at the end of a function. -/
def zerosLine : Str := "\t...\n".toList

/-- A line of a function. -/
inductive Row
  | insn (i : Insn)
  | zeros

def Row.line : Row → Str
  | insn i => i.line
  | zeros => zerosLine

def Row.insn? : Row → Option Insn
  | insn i => some i
  | zeros => none

/-- The line has all the words that the test for the end of a block looks at. -/
def Row.Complete : Row → Prop
  | insn i => ¬ i.LacksThird
  | zeros => False

instance : DecidablePred Row.Complete := fun r => by cases r <;> unfold Row.Complete <;> infer_instance

/-- A function of a listing of Thumb code, like `Symbol`. -/
structure ThumbSymbol where
  pad : ℕ
  addr : ℕ
  name : Str
  rows : List Row
  after : List Str
  name_lt : '<' ∉ name := by decide
  name_gt : '>' ∉ name := by decide
  nonempty : rows ≠ [] := by exact List.cons_ne_nil _ _
  increasing : (rows.filterMap Row.insn?).Pairwise fun i j => i.addr + i.size ≤ j.addr := by decide
  blank : after = [] ∨ after.head? = some ['\n'] := by decide
  plain : ∀ l ∈ after, ¬ ['>', ':'] <:+: l := by decide

def ThumbSymbol.rowLines (f : ThumbSymbol) : List Str := f.rows.map Row.line

def ThumbSymbol.lines (f : ThumbSymbol) : List Str :=
  headerLine f.pad f.addr f.name :: (f.rowLines ++ f.after)

/-- A listing of Thumb code with any number of functions, like `Listing`. -/
structure ThumbListing where
  preamble : List Str
  symbols : List ThumbSymbol
  distinct : (symbols.map ThumbSymbol.name).Nodup := by decide
  separated : ∀ f ∈ symbols.dropLast, f.after ≠ [] := by decide
  plain : ∀ l ∈ preamble, ¬ ['>', ':'] <:+: l := by decide

def ThumbListing.lines (L : ThumbListing) : List Str :=
  L.preamble ++ L.symbols.flatMap ThumbSymbol.lines

section Rows

variable {f : ThumbSymbol} {is : List Insn}

theorem exists_map_insn {rows : List Row} (h : .zeros ∉ rows) :
    ∃ is : List Insn, rows = is.map .insn := by
  have hrange : rows ∈ Set.range (List.map Row.insn) := by
    rw [Set.range_list_map]
    intro r hr
    cases r with
    | insn i => exact ⟨i, rfl⟩
    | zeros => exact absurd hr h
  obtain ⟨is, his⟩ := hrange
  exact ⟨is, his.symm⟩

/-- A function without runs of zero bytes, as a function of items. -/
def ThumbSymbol.symbol (f : ThumbSymbol) (h : f.rows = is.map .insn) : Symbol where
  pad := f.pad
  addr := f.addr
  name := f.name
  items := is.map Insn.item
  after := f.after
  name_lt := f.name_lt
  name_gt := f.name_gt
  nonempty := by
    have hne := f.nonempty
    rw [h] at hne
    simpa using hne
  increasing := by
    have hincreasing := f.increasing
    rw [h, List.filterMap_map] at hincreasing
    have hall : is.filterMap (Row.insn? ∘ Row.insn) = is := List.filterMap_some
    rw [hall] at hincreasing
    exact List.pairwise_map.mpr hincreasing
  blank := f.blank
  plain := f.plain

theorem ThumbSymbol.lines_symbol (h : f.rows = is.map .insn) :
    (f.symbol h).itemLines = f.rowLines ∧ (f.symbol h).lines = f.lines := by
  have hrows : (f.symbol h).itemLines = f.rowLines := by
    unfold ThumbSymbol.rowLines Symbol.itemLines
    rw [h]
    simp only [ThumbSymbol.symbol, List.map_map]
    rfl
  refine ⟨hrows, ?_⟩
  unfold ThumbSymbol.lines Symbol.lines
  rw [hrows]
  rfl

theorem ThumbSymbol.headerText_not_infix_lines (f : ThumbSymbol) {name : Str} (hne : name ≠ f.name) :
    ∀ l ∈ f.lines, ¬ headerText name <:+: l := by
  intro l hl
  unfold ThumbSymbol.lines ThumbSymbol.rowLines at hl
  simp only [List.mem_cons, List.mem_append, List.mem_map] at hl
  rcases hl with rfl | ⟨r, -, rfl⟩ | hl
  · exact fun hin => hne (name_eq_of_infix_headerLine f.name_lt f.name_gt hin)
  · cases r with
    | insn i => exact headerText_not_infix i.plain
    | zeros => exact headerText_not_infix (by decide)
  · exact headerText_not_infix (f.plain l hl)

/-- A function without runs of zero bytes is found, whatever the others are. -/
theorem ThumbListing.nonempty_found (L : ThumbListing) (hf : f ∈ L.symbols)
    (h : f.rows = is.map .insn) : Nonempty (Found L.lines (f.symbol h)) := by
  obtain ⟨pre, post, hsplit, hnames, hpost⟩ := exists_append_of_mem L.distinct L.separated hf
  have hlines : L.lines = (L.preamble ++ pre.flatMap ThumbSymbol.lines) ++
      ((f.symbol h).lines ++ post.flatMap ThumbSymbol.lines) := by
    unfold ThumbListing.lines
    rw [hsplit, List.flatMap_append, List.flatMap_cons, List.append_assoc,
      (ThumbSymbol.lines_symbol h).2]
  refine nonempty_found_of_eq hlines (fun l hl => ?_) fun hafter => by rw [hpost hafter]; rfl
  rcases List.mem_append.mp hl with hl | hl
  · exact headerText_not_infix (L.plain l hl)
  · obtain ⟨g, hg, hl⟩ := List.mem_flatMap.mp hl
    exact g.headerText_not_infix_lines (hnames g hg).symm l hl

end Rows

/-! ## Running over a function -/

/-- The block loop goes over all lines of the function, none of which makes it fail. -/
def RunsOverAll (lines : List Str) (f : ThumbSymbol) : Prop :=
  bbVisited lines f.name = f.rowLines ∧ (bbBlocks lines f.name).isSome

section Run

variable {lines : List Str} {is : List Insn}

/-- Words that are missing are missing of an instruction. -/
theorem forall_endsBlock_isSome_iff : (∀ x ∈ is.map Insn.item, (endsBlock x.words).isSome) ↔
    ∀ i ∈ is, ¬ i.LacksThird := by
  rw [List.forall_mem_map]
  refine forall₂_congr fun i _ => ?_
  rw [i.endsBlock_words]
  split_ifs with h <;> simp [h]

/-- A line of dots has no colon, so a loop over all lines has met none. -/
theorem exists_insns_of_runsOverAll {f : ThumbSymbol} (h : RunsOverAll lines f) :
    ∃ is : List Insn, f.rows = is.map .insn := by
  obtain ⟨hvisited, hsome⟩ := h
  obtain ⟨hall, hbody⟩ := Loop.visited_of_forEach_isSome hsome
  have hlines : bbLines lines f.name = f.rowLines := hall.symm.trans hvisited
  apply exists_map_insn
  intro hmem
  obtain ⟨s, hs⟩ := hbody zerosLine (hlines ▸ List.mem_map_of_mem (f := Row.line) hmem)
  have hcolon : splitColon zerosLine = none := by decide
  unfold bbStep at hs
  rw [hcolon] at hs
  cases hs

/-- The loop over the items of a function. -/
theorem Found.visits_all_iff {f : Symbol} (h : Found lines f) (his : f.items = is.map Insn.item) :
    (bbVisited lines f.name = f.itemLines ∧ (bbBlocks lines f.name).isSome) ↔
      (∀ i ∈ is, ¬ i.LacksThird) ∧ ∀ i ∈ is.dropLast, some i.line ≠ lines.getLast? := by
  have hpos := List.length_pos_of_ne_nil f.nonempty
  have hlast : (∀ i ∈ is.dropLast, some i.line ≠ lines.getLast?) ↔
      stopIndex lines.getLast? f.items = f.items.length - 1 := by
    rw [stopIndex_eq_iff, his, ← List.map_dropLast, List.forall_mem_map]
    rfl
  -- with the scan at the last line, the loop is over all lines
  have hloop : stopIndex lines.getLast? f.items = f.items.length - 1 →
      ((bbBlocks lines f.name).isSome ↔ ∀ i ∈ is, ¬ i.LacksThird) := by
    intro hstop
    unfold bbBlocks
    rw [h.bbLines_eq, List.take_of_length_le (by omega), forEach_itemLines_isSome_iff le_rfl, his,
      forall_endsBlock_isSome_iff]
  rw [h.bbVisited_eq_iff, hlast]
  constructor
  · rintro ⟨⟨hstop, -⟩, hsome⟩
    exact ⟨(hloop hstop).mp hsome, hstop⟩
  · rintro ⟨hthird, hstop⟩
    refine ⟨⟨hstop, fun x hx => ?_⟩, (hloop hstop).mpr hthird⟩
    exact forall_endsBlock_isSome_iff.mpr hthird x (his ▸ List.mem_of_mem_dropLast hx)

end Run

/-- **When the loop gets through.** The loop goes over all lines of a function exactly when there is no
run of zero bytes among them, every instruction of two bytes without operands is a branch or return, and
no line before the last one reads like the last line of the file. -/
theorem runsOverAll_iff (L : ThumbListing) {f : ThumbSymbol} (hf : f ∈ L.symbols) :
    RunsOverAll L.lines f ↔ (∀ r ∈ f.rows, r.Complete) ∧
      ∀ r ∈ f.rows.dropLast, some r.line ≠ L.lines.getLast? := by
  have hinsns : ∀ is : List Insn, f.rows = is.map .insn → (RunsOverAll L.lines f ↔
      (∀ r ∈ f.rows, r.Complete) ∧ ∀ r ∈ f.rows.dropLast, some r.line ≠ L.lines.getLast?) := by
    intro is his
    obtain ⟨h⟩ := L.nonempty_found hf his
    have hrun := h.visits_all_iff rfl
    rw [(ThumbSymbol.lines_symbol his).1] at hrun
    rw [his, ← List.map_dropLast, List.forall_mem_map, List.forall_mem_map]
    exact hrun
  constructor
  · intro h
    obtain ⟨is, his⟩ := exists_insns_of_runsOverAll h
    exact (hinsns is his).mp h
  · intro h
    obtain ⟨is, his⟩ := exists_map_insn fun hmem => h.1 _ hmem
    exact (hinsns is his).mpr h

/-- An instruction without operands. -/
def nopAt (addr : ℕ)
    (h : ¬ ['>', ':'] <:+: itemLine 1 addr (insnText (.narrow 0xbf00) "nop".toList [])) : Insn where
  addr := addr
  pad := 1
  enc := .narrow 0xbf00
  mnemonic := "nop".toList
  operands := []
  plain := h

/-- The return from a function. -/
def bxAt (addr : ℕ)
    (h : ¬ ['>', ':'] <:+: itemLine 1 addr (insnText (.narrow 0x4770) "bx".toList "lr".toList)) :
    Insn where
  addr := addr
  pad := 1
  enc := .narrow 0x4770
  mnemonic := "bx".toList
  operands := "lr".toList
  plain := h

/-- An instruction of four bytes. -/
def movwInsn (addr : ℕ)
    (h : ¬ ['>', ':'] <:+:
      itemLine 1 addr (insnText (.wide 0xf240 0x0001) "movw".toList "r0, #1".toList)) : Insn where
  addr := addr
  pad := 1
  enc := .wide 0xf240 0x0001
  mnemonic := "movw".toList
  operands := "r0, #1".toList
  plain := h

/-- A function that starts with an instruction without operands. -/
def waitSymbol : ThumbSymbol where
  pad := 1
  addr := 0x8004000
  name := "Wait".toList
  rows := [.insn (nopAt 0x8004000 (by decide)), .insn (bxAt 0x8004002 (by decide))]
  after := ["\n".toList]
  blank := wideSymbol.blank
  plain := wideSymbol.plain

/-- Instructions of both widths and a literal word. -/
def exitSymbol : ThumbSymbol where
  pad := 1
  addr := 0x8004004
  name := "Exit".toList
  rows := [.insn (movwInsn 0x8004004 (by decide)), .insn (bxAt 0x8004008 (by decide)),
    .insn { addr := 0x800400c, pad := 1, enc := .literal 0x20000010, mnemonic := ".word".toList,
            operands := "0x20000010".toList }]
  after := ["\n".toList]
  blank := wideSymbol.blank
  plain := wideSymbol.plain

/-- A return in front of two literal words that are zero. -/
def tableSymbol : ThumbSymbol where
  pad := 1
  addr := 0x8004010
  name := "Table".toList
  rows := [.insn (bxAt 0x8004010 (by decide)), .zeros]
  after := []
  blank := mainSymbol.blank
  plain := mainSymbol.plain

def waitListing : ThumbListing where
  preamble := ["\n".toList]
  symbols := [waitSymbol, exitSymbol, tableSymbol]
  plain := wideSymbol.plain

/-- The loop stops at the first line of one function and at the last of another. -/
theorem not_runsOverAll_wait : waitSymbol ∈ waitListing.symbols ∧ tableSymbol ∈ waitListing.symbols ∧
    ¬ RunsOverAll waitListing.lines waitSymbol ∧ ¬ RunsOverAll waitListing.lines tableSymbol := by
  refine ⟨List.mem_cons_self, by simp [waitListing], ?_, ?_⟩
  · rintro ⟨-, hsome⟩
    revert hsome; decide
  · rintro ⟨-, hsome⟩
    revert hsome; decide

theorem runsOverAll_exit : RunsOverAll waitListing.lines exitSymbol :=
  (runsOverAll_iff waitListing (List.mem_cons_of_mem _ List.mem_cons_self)).mpr
    ⟨by decide, by decide⟩

end MpuPasses
