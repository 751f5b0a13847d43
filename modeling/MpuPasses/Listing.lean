import MpuPasses.Lib.Chars

/-!
# Disassembly listings

What `objdump -d` prints: for every function a header `<name>:`, one line for each instruction or
literal word, and, except after the last function, a blank line. Every line of a function here has an
address; the dots that stand for a run of zero bytes have none and come with `ThumbListing` only.
`function_size.py` and `BB_check1.py` find the lines of a function with the same scan, which stops at a
blank line or at a line that reads like the last line of the file. `regionEnd_items` says where it stops.
-/

namespace MpuPasses

open Chars

/-! ## The format -/

/-- The line of an item: its address, right-aligned, a colon and the rest. -/
def itemLine (pad addr : ℕ) (text : Str) : Str :=
  List.replicate pad ' ' ++ Nat.toDigits 16 addr ++ ':' :: text ++ ['\n']

/-- An instruction or a literal word. -/
structure Item where
  addr : ℕ
  size : ℕ
  pad : ℕ
  text : Str
  size_eq : size = 2 ∨ size = 4 := by decide
  plain : ¬ ['>', ':'] <:+: itemLine pad addr text := by decide

theorem size_eq_two : 2 = 2 ∨ 2 = 4 := .inl rfl

def Item.line (x : Item) : Str := itemLine x.pad x.addr x.text

/-- The line of a header. -/
def headerLine (pad addr : ℕ) (name : Str) : Str :=
  List.replicate pad '0' ++ Nat.toDigits 16 addr ++ [' '] ++
    '<' :: (name ++ '>' :: [':', '\n'])

/-- A function of a listing: its header, its items at increasing addresses, and the lines up to
the next header. Only at the end of the file no blank line follows. -/
structure Symbol where
  pad : ℕ
  addr : ℕ
  name : Str
  items : List Item
  after : List Str
  name_lt : '<' ∉ name := by decide
  name_gt : '>' ∉ name := by decide
  nonempty : items ≠ [] := by decide
  increasing : items.Pairwise fun x y => x.addr + x.size ≤ y.addr := by decide
  blank : after = [] ∨ after.head? = some ['\n'] := by decide
  plain : ∀ l ∈ after, ¬ ['>', ':'] <:+: l := by decide

def Symbol.itemLines (f : Symbol) : List Str := f.items.map Item.line

def Symbol.lines (f : Symbol) : List Str :=
  headerLine f.pad f.addr f.name :: (f.itemLines ++ f.after)

/-- A listing with any number of functions. Their addresses are unrelated, as in an object file
whose sections all start at 0. -/
structure Listing where
  preamble : List Str
  symbols : List Symbol
  distinct : (symbols.map Symbol.name).Nodup := by decide
  separated : ∀ f ∈ symbols.dropLast, f.after ≠ [] := by decide
  plain : ∀ l ∈ preamble, ¬ ['>', ':'] <:+: l := by decide

/-- The lines of the file. -/
def Listing.lines (L : Listing) : List Str := L.preamble ++ L.symbols.flatMap Symbol.lines

/-! ## The scan of the scripts -/

/-- `f_name`. -/
def headerText (name : Str) : Str := '<' :: (name ++ ['>', ':'])

/-- The lines up to the header of `name`. -/
def headerOffset (lines : List Str) (name : Str) : ℕ :=
  countTo (fun line => decide (headerText name <:+: line)) lines

/-- The loop over `lines[offset:]`, whose last line it compares every line with. -/
def regionEnd (last : Option Str) : List Str → ℕ
  | [] => 0
  | l :: ls => if l = ['\n'] then 1 else if some l = last then 2 else regionEnd last ls + 1

/-- `offset` and `last_line`. -/
def functionRegion (lines : List Str) (name : Str) : ℕ × ℕ :=
  let offset := headerOffset lines name
  let tail := lines.drop offset
  (offset, offset + regionEnd tail.getLast? tail)

/-- `int(line.split(":", maxsplit=1)[0].strip(), 16)`. -/
def lineAddr (line : Str) : Option ℤ := pyInt 16 (strip (line.takeWhile (· ≠ ':')))

/-! ## Lines of items -/

theorem Item.line_ne_blank (x : Item) : x.line ≠ ['\n'] := by
  intro h
  have hmem : ':' ∈ x.line := by unfold Item.line itemLine; simp
  rw [h] at hmem
  revert hmem; decide

theorem colon_notMem_address (pad addr : ℕ) :
    ∀ c ∈ List.replicate pad ' ' ++ Nat.toDigits 16 addr, c ≠ ':' := by
  intro c hc
  rcases List.mem_append.mp hc with hc | hc
  · rw [List.eq_of_mem_replicate hc]; decide
  · exact (plain_of_mem_hex hc).colon

theorem Item.takeWhile_line (x : Item) : x.line.takeWhile (· ≠ ':') =
    List.replicate x.pad ' ' ++ Nat.toDigits 16 x.addr := by
  unfold Item.line itemLine
  rw [List.append_assoc, List.takeWhile_append_of_pos (by simpa using colon_notMem_address _ _),
    List.cons_append, List.takeWhile_cons_of_neg (by simp), List.append_nil]

/-- The scripts read the address of an item. -/
theorem Item.lineAddr_line (x : Item) : lineAddr x.line = some (x.addr : ℤ) := by
  have hdig : ∀ c ∈ Nat.toDigits 16 x.addr, isSpace c = false := fun c hc =>
    (plain_of_mem_hex hc).space
  have hpad : ∀ c ∈ List.replicate x.pad ' ', isSpace c = true := fun c hc => by
    rw [List.eq_of_mem_replicate hc]; decide
  have hint : pyInt 16 (Nat.toDigits 16 x.addr) = some (x.addr : ℤ) :=
    pyInt_toDigits (by omega) le_rfl x.addr
  unfold lineAddr
  rw [x.takeWhile_line, strip_pad_append hpad hdig Nat.toDigits_ne_nil, hint]

theorem Item.addr_eq_of_line_eq {x y : Item} (h : x.line = y.line) : x.addr = y.addr := by
  have hx := x.lineAddr_line
  rw [h, y.lineAddr_line] at hx
  exact_mod_cast (Option.some.inj hx).symm

/-! ## Headers -/

theorem headerText_not_infix {name l : Str} (h : ¬ ['>', ':'] <:+: l) :
    ¬ headerText name <:+: l := by
  intro hin
  have hsuf : ['>', ':'] <:+: headerText name := ⟨'<' :: name, [], by simp [headerText]⟩
  exact h (hsuf.trans hin)

theorem headerText_infix_headerLine (pad addr : ℕ) (name : Str) :
    headerText name <:+: headerLine pad addr name :=
  ⟨List.replicate pad '0' ++ Nat.toDigits 16 addr ++ [' '], ['\n'], by
    simp [headerText, headerLine]⟩

/-- A header names its own function only. -/
theorem name_eq_of_infix_headerLine {pad addr : ℕ} {name other : Str} (hlt : '<' ∉ other)
    (hgt : '>' ∉ other) (h : headerText name <:+: headerLine pad addr other) : name = other := by
  obtain ⟨a, b, hab⟩ := h
  have hfront : '<' ∉ List.replicate pad '0' ++ Nat.toDigits 16 addr ++ [' '] := by
    intro hm
    simp only [List.mem_append, List.mem_singleton] at hm
    rcases hm with (hm | hm) | hm
    · exact absurd (List.eq_of_mem_replicate hm) (by decide)
    · exact (plain_of_mem_hex hm).angle.1 rfl
    · exact absurd hm (by decide)
  have hback : '<' ∉ other ++ '>' :: [':', '\n'] := by simpa using hlt
  have hsplit : List.replicate pad '0' ++ Nat.toDigits 16 addr ++ [' '] ++
      '<' :: (other ++ '>' :: [':', '\n']) = a ++ '<' :: (name ++ '>' :: ':' :: b) := by
    unfold headerText headerLine at hab
    rw [← hab]; simp
  have hrest := ((List.append_cons_inj_of_notMem hfront hback).mp hsplit).2.2
  exact (((List.append_cons_inj_of_notMem hgt (by decide)).mp hrest).1).symm

/-! ## Where the scan stops -/

/-- The index of the item that the scan stops at: the first one before the last whose line reads
like the last line of the file, else the last one. -/
def stopIndex (last : Option Str) (items : List Item) : ℕ :=
  items.dropLast.findIdx fun x => decide (some x.line = last)

theorem stopIndex_lt (last : Option Str) {items : List Item} (hne : items ≠ []) :
    stopIndex last items < items.length := by
  have hle : stopIndex last items ≤ items.dropLast.length := List.findIdx_le_length
  have hpos := List.length_pos_of_ne_nil hne
  rw [List.length_dropLast] at hle
  omega

theorem stopIndex_eq_iff (last : Option Str) (items : List Item) :
    stopIndex last items = items.length - 1 ↔ ∀ x ∈ items.dropLast, some x.line ≠ last := by
  unfold stopIndex
  rw [← List.length_dropLast, List.findIdx_eq_length]
  simp only [decide_eq_false_iff_not, ne_eq]

/-- What may follow the items: nothing, and then the last item ends the file, or a blank line. -/
def EndsItems (last : Option Str) (items : List Item) (rest : List Str) : Prop :=
  (rest = [] ∧ last = (items.map Item.line).getLast?) ∨ rest.head? = some ['\n']

/-- **The end of the scan.** It lies two lines after the item that stops it. -/
theorem regionEnd_items {last : Option Str} {items : List Item} {rest : List Str}
    (hne : items ≠ []) (hrest : EndsItems last items rest) :
    regionEnd last (items.map Item.line ++ rest) = stopIndex last items + 2 := by
  induction items with
  | nil => exact absurd rfl hne
  | cons x xs ih =>
    rw [List.map_cons, List.cons_append, regionEnd, if_neg x.line_ne_blank]
    by_cases hx : some x.line = last
    · have hstop : stopIndex last (x :: xs) = 0 := by
        unfold stopIndex
        cases xs with
        | nil => rfl
        | cons y ys => rw [List.dropLast_cons_cons, List.findIdx_cons, decide_eq_true hx]; rfl
      rw [if_pos hx, hstop]
    · rw [if_neg hx]
      cases xs with
      | nil =>
        -- the last item reads differently from the end of the file, so a blank line follows
        obtain ⟨-, hlast⟩ | hblank := hrest
        · exact absurd hlast.symm hx
        · obtain ⟨b, rest, rfl⟩ := List.exists_cons_of_ne_nil (l := rest) (by
            rintro rfl; simp at hblank)
          rw [List.head?_cons, Option.some.injEq] at hblank
          rw [List.map_nil, List.nil_append, regionEnd, if_pos hblank]
          rfl
      | cons y ys =>
        have hrest' : EndsItems last (y :: ys) rest := by
          obtain ⟨hnil, hlast⟩ | hblank := hrest
          · exact .inl ⟨hnil, by rw [hlast]; simp⟩
          · exact .inr hblank
        rw [ih (by simp) hrest']
        unfold stopIndex
        rw [List.dropLast_cons_cons, List.findIdx_cons, decide_eq_false hx]
        rfl

/-! ## The lines of one function -/

/-- The lines of a file around the function `f`: no earlier line carries the text of its header,
and `rest` follows its items. -/
structure Found (lines : List Str) (f : Symbol) where
  before : List Str
  rest : List Str
  lines_eq : lines = before ++ headerLine f.pad f.addr f.name :: (f.itemLines ++ rest)
  first : ∀ l ∈ before, ¬ headerText f.name <:+: l
  ends : EndsItems lines.getLast? f.items rest
  rest_eq_nil : rest = [] ↔ f.after = []

theorem Symbol.headerText_not_infix_lines {g : Symbol} {name : Str} (hne : name ≠ g.name) :
    ∀ l ∈ g.lines, ¬ headerText name <:+: l := by
  intro l hl
  unfold Symbol.lines Symbol.itemLines at hl
  simp only [List.mem_cons, List.mem_append, List.mem_map] at hl
  rcases hl with rfl | ⟨x, -, rfl⟩ | hl
  · exact fun hin => hne (name_eq_of_infix_headerLine g.name_lt g.name_gt hin)
  · exact headerText_not_infix x.plain
  · exact headerText_not_infix (g.plain l hl)

/-- Without a function of that name no line carries the text of its header. -/
theorem Listing.headerText_not_infix_lines (L : Listing) {name : Str}
    (h : ∀ f ∈ L.symbols, f.name ≠ name) :
    ∀ l ∈ L.lines, ¬ headerText name <:+: l := by
  intro l hl
  rcases List.mem_append.mp hl with hl | hl
  · exact headerText_not_infix (L.plain l hl)
  · obtain ⟨f, hf, hl⟩ := List.mem_flatMap.mp hl
    exact Symbol.headerText_not_infix_lines (h f hf).symm l hl

/-- What is in front of and behind one of some functions with different names, only the last of which
can end the file. -/
theorem exists_append_of_mem {σ : Type*} {name : σ → Str} {after : σ → List Str} {l : List σ}
    (hdistinct : (l.map name).Nodup) (hseparated : ∀ f ∈ l.dropLast, after f ≠ []) {f : σ}
    (hf : f ∈ l) : ∃ pre post, l = pre ++ f :: post ∧ (∀ g ∈ pre, name g ≠ name f) ∧
      (after f = [] → post = []) := by
  obtain ⟨pre, post, rfl⟩ := List.append_of_mem hf
  rw [List.map_append, List.map_cons, List.nodup_append] at hdistinct
  refine ⟨pre, post, rfl, fun g hg => ?_, fun hafter => ?_⟩
  · exact hdistinct.2.2 _ (List.mem_map_of_mem hg) _ List.mem_cons_self
  · by_contra hpost
    refine hseparated f ?_ hafter
    rw [List.dropLast_append_of_ne_nil (by simp), List.dropLast_cons_of_ne_nil hpost]
    simp

/-- A function is found if no line in front of it carries the text of its header. -/
theorem nonempty_found_of_eq {lines pre post : List Str} {f : Symbol}
    (hlines : lines = pre ++ (f.lines ++ post)) (hfirst : ∀ l ∈ pre, ¬ headerText f.name <:+: l)
    (hpost : f.after = [] → post = []) : Nonempty (Found lines f) := by
  have hlines : lines = pre ++ headerLine f.pad f.addr f.name :: (f.itemLines ++ (f.after ++ post)) := by
    rw [hlines]
    simp [Symbol.lines]
  have hnil : f.after ++ post = [] ↔ f.after = [] := by
    constructor
    · exact fun h => (List.append_eq_nil_iff.mp h).1
    · intro h
      rw [h, hpost h]; rfl
  refine ⟨_, _, hlines, hfirst, ?_, hnil⟩
  obtain hafter | hblank := f.blank
  · have hrest := hnil.mpr hafter
    refine .inl ⟨hrest, ?_⟩
    rw [hlines, hrest, List.append_nil, List.getLast?_append_of_ne_nil _ (by simp),
      List.getLast?_cons_of_ne_nil (by simpa [Symbol.itemLines] using f.nonempty)]
    rfl
  · exact .inr (by rw [List.head?_append, hblank]; rfl)

/-- Every function of a listing is found. -/
theorem Listing.nonempty_found (L : Listing) {f : Symbol} (hf : f ∈ L.symbols) :
    Nonempty (Found L.lines f) := by
  obtain ⟨pre, post, hsplit, hnames, hpost⟩ := exists_append_of_mem L.distinct L.separated hf
  have hlines : L.lines = (L.preamble ++ pre.flatMap Symbol.lines) ++
      (f.lines ++ post.flatMap Symbol.lines) := by
    unfold Listing.lines
    rw [hsplit, List.flatMap_append, List.flatMap_cons, List.append_assoc]
  refine nonempty_found_of_eq hlines (fun l hl => ?_) fun hafter => by rw [hpost hafter]; rfl
  rcases List.mem_append.mp hl with hl | hl
  · exact headerText_not_infix (L.plain l hl)
  · obtain ⟨g, hg, hl⟩ := List.mem_flatMap.mp hl
    exact Symbol.headerText_not_infix_lines (hnames g hg).symm l hl

variable {lines : List Str} {f : Symbol}

theorem Found.headerOffset_eq (h : Found lines f) :
    headerOffset lines f.name = h.before.length + 1 := by
  unfold headerOffset
  conv_lhs => rw [h.lines_eq]
  exact countTo_append (fun l hl => decide_eq_false (h.first l hl))
    (decide_eq_true (headerText_infix_headerLine _ _ _)) _

/-- Without a header the region is the empty one at the end of the file. -/
theorem functionRegion_of_not_found {name : Str} (h : ∀ l ∈ lines, ¬ headerText name <:+: l) :
    functionRegion lines name = (lines.length, lines.length) := by
  have hoff : headerOffset lines name = lines.length :=
    countTo_eq_length fun l hl => decide_eq_false (h l hl)
  unfold functionRegion
  simp only [hoff, List.drop_length]
  rfl

theorem Found.lines_append (h : Found lines f) :
    lines = (h.before ++ [headerLine f.pad f.addr f.name]) ++ (f.itemLines ++ h.rest) := by
  rw [List.append_assoc, List.singleton_append]
  exact h.lines_eq

theorem Found.drop_offset (h : Found lines f) :
    lines.drop (h.before.length + 1) = f.itemLines ++ h.rest := by
  refine (congrArg (List.drop _) h.lines_append).trans ?_
  exact List.drop_left' (by simp)

theorem Found.getLast?_tail (h : Found lines f) :
    (f.itemLines ++ h.rest).getLast? = lines.getLast? := by
  have hne : f.itemLines ++ h.rest ≠ [] := by simp [Symbol.itemLines, f.nonempty]
  refine Eq.trans ?_ (congrArg List.getLast? h.lines_append).symm
  rw [List.getLast?_append_of_ne_nil _ hne]

/-- The region that both scripts compute. -/
theorem Found.functionRegion_eq (h : Found lines f) : functionRegion lines f.name =
    (h.before.length + 1, h.before.length + 1 + (stopIndex lines.getLast? f.items + 2)) := by
  unfold functionRegion
  simp only [h.headerOffset_eq, h.drop_offset, h.getLast?_tail]
  rw [Symbol.itemLines, regionEnd_items f.nonempty h.ends]

/-- A slice of the file that begins after the header. -/
theorem Found.slice_eq (h : Found lines f) (n : ℕ) :
    slice lines (h.before.length + 1) (h.before.length + 1 + n) = (f.itemLines ++ h.rest).take n := by
  have hlen : h.before.length + 1 = (h.before ++ [headerLine f.pad f.addr f.name]).length := by simp
  refine (congrArg (slice · _ _) h.lines_append).trans ?_
  rw [hlen]
  exact slice_append _ _ n

end MpuPasses
