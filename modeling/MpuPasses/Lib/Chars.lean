import Mathlib

/-!
# Text as lists of characters

The pieces of the Python and C++ standard libraries that read and print numbers and lines, on
lists of characters: `str`, `hex`, `int(·, base)`, `strip`, `split`, `readlines` on the one side,
`stoi` and `getline` on the other. Each reader undoes the printer in front of it (`pyInt_pyStr`,
`stoi_pyStr_append`, `getlines_append`, `readlines_append`). Python's white space and digits are those
of Unicode, C++'s those of ASCII.
-/

namespace Chars

/-- A text. -/
abbrev Str := List Char

instance : LawfulBEq Str := inferInstance

/-- `c.isspace()` of Python, the white space of `strip` and `split`. -/
def isSpace (c : Char) : Bool :=
  let n := c.toNat
  (9 ≤ n && n ≤ 13) || (28 ≤ n && n ≤ 32) || n == 0x85 || n == 0xa0 || n == 0x1680 ||
    (0x2000 ≤ n && n ≤ 0x200a) || n == 0x2028 || n == 0x2029 || n == 0x202f || n == 0x205f ||
    n == 0x3000

/-- `isspace(c)` of C, the white space that `stoi` skips. -/
def isCSpace (c : Char) : Bool := c == ' ' || ('\t' ≤ c && c ≤ '\r')

theorem isSpace_of_isCSpace {c : Char} (h : isCSpace c = true) : isSpace c = true := by
  unfold isCSpace at h
  simp only [Bool.or_eq_true, beq_iff_eq, Bool.and_eq_true, decide_eq_true_eq] at h
  rcases h with rfl | ⟨hlo, hhi⟩
  · rfl
  · have hlo' : 9 ≤ c.toNat := hlo
    have hhi' : c.toNat ≤ 13 := hhi
    simp [isSpace, hlo', hhi']

theorem isCSpace_eq_false {c : Char} (h : isSpace c = false) : isCSpace c = false := by
  rw [← Bool.not_eq_true] at h ⊢
  exact mt isSpace_of_isCSpace h

/-- `str.strip()`. -/
def strip (s : Str) : Str := (s.dropWhile isSpace).rdropWhile isSpace

theorem isInfix_strip (s : Str) : strip s <:+: s := by
  have hback : strip s <+: s.dropWhile isSpace := List.rdropWhile_prefix isSpace _
  exact hback.isInfix.trans (List.dropWhile_suffix isSpace).isInfix

theorem strip_append_append {pad s post : Str} (hpad : ∀ c ∈ pad, isSpace c = true)
    (hs : ∀ c ∈ s, isSpace c = false) (hne : s ≠ []) (hpost : ∀ c ∈ post, isSpace c = true) :
    strip (pad ++ s ++ post) = s := by
  have hfront : (pad ++ s ++ post).dropWhile isSpace = s ++ post := by
    obtain ⟨c, t, rfl⟩ := List.exists_cons_of_ne_nil hne
    rw [List.append_assoc, List.dropWhile_append_of_pos hpad, List.cons_append,
      List.dropWhile_cons_of_neg (by simp [hs c])]
  have hback : s.rdropWhile isSpace = s :=
    List.rdropWhile_eq_self_iff.mpr fun hl => by simp [hs _ (List.getLast_mem hl)]
  rw [strip, hfront, List.rdropWhile, List.reverse_append,
    List.dropWhile_append_of_pos (by simpa using hpost)]
  exact hback

theorem strip_pad_append {pad s : Str} (hpad : ∀ c ∈ pad, isSpace c = true)
    (hs : ∀ c ∈ s, isSpace c = false) (hne : s ≠ []) : strip (pad ++ s) = s := by
  have hnil : ∀ c ∈ ([] : Str), isSpace c = true := by simp
  rw [← List.append_nil (pad ++ s), strip_append_append hpad hs hne hnil]

theorem strip_append {s post : Str} (hs : ∀ c ∈ s, isSpace c = false) (hne : s ≠ [])
    (hpost : ∀ c ∈ post, isSpace c = true) : strip (s ++ post) = s := by
  have hnil : ∀ c ∈ ([] : Str), isSpace c = true := by simp
  exact strip_append_append hnil hs hne hpost

/-- Stripping forgets what is around a text. -/
theorem strip_pad {pad post : Str} (hpad : ∀ c ∈ pad, isSpace c = true)
    (hpost : ∀ c ∈ post, isSpace c = true) (s : Str) : strip (pad ++ s ++ post) = strip s := by
  have hback : ∀ t : Str, (t ++ post).rdropWhile isSpace = t.rdropWhile isSpace := by
    intro t
    unfold List.rdropWhile
    rw [List.reverse_append, List.dropWhile_append_of_pos (by simpa using hpost)]
  unfold strip
  rw [List.append_assoc, List.dropWhile_append_of_pos hpad, List.dropWhile_append]
  split_ifs with hblank
  · -- nothing but spaces
    have hnil : s.dropWhile isSpace = [] := List.isEmpty_iff.mp hblank
    have hpost' : post.dropWhile isSpace = [] := List.dropWhile_eq_nil_iff.mpr hpost
    rw [hnil, hpost']
  · exact hback _

/-! ## Digits -/

/-- The value of an alphanumeric character as a digit. -/
def rawDigit (c : Char) : Option ℕ :=
  if '0' ≤ c ∧ c ≤ '9' then some (c.toNat - 48)
  else if 'a' ≤ c ∧ c ≤ 'z' then some (c.toNat - 87)
  else if 'A' ≤ c ∧ c ≤ 'Z' then some (c.toNat - 55)
  else none

/-- The value of a digit of base `b`. -/
def digitVal (b : ℕ) (c : Char) : Option ℕ := (rawDigit c).filter (· < b)

theorem rawDigit_digitChar : ∀ d < 16, rawDigit (Nat.digitChar d) = some d := by decide

theorem digitVal_digitChar {b d : ℕ} (hb : b ≤ 16) (hd : d < b) :
    digitVal b (Nat.digitChar d) = some d := by
  rw [digitVal, rawDigit_digitChar d (by omega)]
  simp [Option.filter, hd]

/-- None of the characters that have a meaning of their own in the texts here. -/
structure Plain (c : Char) : Prop where
  ascii : c.toNat < 127
  space : isSpace c = false
  underscore : c ≠ '_'
  sign : c ≠ '-' ∧ c ≠ '+'
  hex : c ≠ 'x' ∧ c ≠ 'X'
  colon : c ≠ ':'
  newline : c ≠ '\n' ∧ c ≠ '\r'
  angle : c ≠ '<' ∧ c ≠ '>'

theorem plain_digitChar {d : ℕ} (hd : d < 16) : Plain (Nat.digitChar d) := by
  constructor <;> (revert d; decide)

/-- Every character of a printed number is a digit. -/
theorem exists_digitChar_of_mem {b n : ℕ} (hb : 1 < b) {c : Char} (h : c ∈ Nat.toDigits b n) :
    ∃ d < b, c = Nat.digitChar d := by
  induction n using Nat.strong_induction_on with
  | _ n ih =>
    rw [Nat.toDigits_eq_if hb] at h
    split at h
    · next hn => exact ⟨n, hn, List.mem_singleton.mp h⟩
    · next hn =>
      rcases List.mem_append.mp h with h | h
      · exact ih (n / b) (Nat.div_lt_self (by omega) hb) h
      · exact ⟨n % b, Nat.mod_lt n (by omega), List.mem_singleton.mp h⟩

theorem plain_of_mem_toDigits {b n : ℕ} (hb : 1 < b) (hb' : b ≤ 16) {c : Char}
    (h : c ∈ Nat.toDigits b n) : Plain c := by
  obtain ⟨d, hd, rfl⟩ := exists_digitChar_of_mem hb h
  exact plain_digitChar (hd.trans_le hb')

theorem plain_of_mem_decimal {n : ℕ} {c : Char} (h : c ∈ Nat.toDigits 10 n) : Plain c :=
  plain_of_mem_toDigits (by omega) (by omega) h

theorem plain_of_mem_hex {n : ℕ} {c : Char} (h : c ∈ Nat.toDigits 16 n) : Plain c :=
  plain_of_mem_toDigits (by omega) le_rfl h

/-- An optional sign in front of a magnitude. -/
def signed (magnitude : Str → Option ℕ) : Str → Option ℤ
  | '-' :: ds => (magnitude ds).map fun n : ℕ => -(n : ℤ)
  | '+' :: ds => (magnitude ds).map Nat.cast
  | ds => (magnitude ds).map Nat.cast

theorem signed_minus (magnitude : Str → Option ℕ) (ds : Str) :
    signed magnitude ('-' :: ds) = (magnitude ds).map fun n : ℕ => -(n : ℤ) := rfl

theorem signed_of_head (magnitude : Str → Option ℕ) {c : Char} (h : c ≠ '-' ∧ c ≠ '+') (ds : Str) :
    signed magnitude (c :: ds) = (magnitude (c :: ds)).map Nat.cast := by
  unfold signed
  split
  · next heq => exact absurd (List.cons.inj heq).1 h.1
  · next heq => exact absurd (List.cons.inj heq).1 h.2
  · rfl

/-! ## `int(s, base)` -/

/-- The digits of `int`: single underscores may stand between them. `ok` says that the text may
end, or an underscore follow, here. -/
def intDigits (b : ℕ) : ℕ → Bool → Str → Option ℕ
  | acc, ok, [] => if ok then some acc else none
  | acc, ok, c :: cs =>
    if c = '_' then if ok then intDigits b acc false cs else none
    else match digitVal b c with
      | some d => intDigits b (acc * b + d) true cs
      | none => none

/-- The digits of `int` with the prefix that base 16 allows. -/
def intMagnitude (b : ℕ) (s : Str) : Option ℕ :=
  if b = 16 ∧ (s.take 2 = ['0', 'x'] ∨ s.take 2 = ['0', 'X']) then
    if s.drop 2 = [] then none else intDigits b 0 true (s.drop 2)
  else intDigits b 0 false s

/-- The decimal digits of value 0 beyond ASCII, in Unicode 14; the digits 1 to 9 follow each. -/
def decimalZeros : List ℕ :=
  [0x660, 0x6f0, 0x7c0, 0x966, 0x9e6, 0xa66, 0xae6, 0xb66, 0xbe6, 0xc66, 0xce6, 0xd66, 0xde6, 0xe50,
   0xed0, 0xf20, 0x1040, 0x1090, 0x17e0, 0x1810, 0x1946, 0x19d0, 0x1a80, 0x1a90, 0x1b50, 0x1bb0,
   0x1c40, 0x1c50, 0xa620, 0xa8d0, 0xa900, 0xa9d0, 0xa9f0, 0xaa50, 0xabf0, 0xff10, 0x104a0, 0x10d30,
   0x11066, 0x110f0, 0x11136, 0x111d0, 0x112f0, 0x11450, 0x114d0, 0x11650, 0x116c0, 0x11730,
   0x118e0, 0x11950, 0x11c50, 0x11d50, 0x11da0, 0x16a60, 0x16ac0, 0x16b50, 0x1d7ce, 0x1d7d8,
   0x1d7e2, 0x1d7ec, 0x1d7f6, 0x1e140, 0x1e2f0, 0x1e950, 0x1fbf0]

/-- The value of a decimal digit beyond ASCII. -/
def decimal (c : Char) : Option ℕ :=
  (decimalZeros.find? fun z => z ≤ c.toNat && c.toNat < z + 10).map (c.toNat - ·)

/-- What `int` takes a character for. Beyond ASCII a space is a blank, a decimal digit its value, and
anything else no part of a number. -/
def toAscii (c : Char) : Char :=
  if c.toNat < 127 then c
  else if isSpace c then ' '
  else (decimal c).elim '?' Nat.digitChar

/-- `int(s, base)`; `none` is a ValueError. Of the spaces of ASCII it skips only those of C. A limit on
the number of digits, which Python can be given, is not set. -/
def pyInt (b : ℕ) (s : Str) : Option ℤ :=
  signed (intMagnitude b) (((s.map toAscii).dropWhile isCSpace).rdropWhile isCSpace)

/-- Without spaces and beyond nothing but ASCII a text is read as it stands. -/
theorem pyInt_of_ascii {b : ℕ} {s : Str} (hascii : ∀ c ∈ s, c.toNat < 127)
    (hspace : ∀ c ∈ s, isCSpace c = false) : pyInt b s = signed (intMagnitude b) s := by
  have hmap : s.map toAscii = s :=
    (List.map_congr_left fun c hc => if_pos (hascii c hc)).trans (List.map_id s)
  have hfront : s.dropWhile isCSpace = s := by
    cases s with
    | nil => rfl
    | cons c s => exact List.dropWhile_cons_of_neg (by simp [hspace c List.mem_cons_self])
  have hback : s.rdropWhile isCSpace = s :=
    List.rdropWhile_eq_self_iff.mpr fun hl => by simp [hspace _ (List.getLast_mem hl)]
  unfold pyInt
  rw [hmap, hfront, hback]

theorem intDigits_cons_digitChar {b d : ℕ} (hb : b ≤ 16) (hd : d < b) (acc : ℕ) (ok : Bool)
    (s : Str) : intDigits b acc ok (Nat.digitChar d :: s) = intDigits b (acc * b + d) true s := by
  rw [intDigits, if_neg (plain_digitChar (hd.trans_le hb)).underscore, digitVal_digitChar hb hd]

theorem intDigits_toDigits_append {b : ℕ} (hb : 1 < b) (hb' : b ≤ 16) (n : ℕ) (s : Str) :
    intDigits b 0 false (Nat.toDigits b n ++ s) = intDigits b n true s := by
  induction n using Nat.strong_induction_on generalizing s with
  | _ n ih =>
    rw [Nat.toDigits_eq_if hb]
    split
    · next hn =>
      rw [List.cons_append, intDigits_cons_digitChar hb' hn, Nat.zero_mul, Nat.zero_add,
        List.nil_append]
    · next hn =>
      rw [List.append_assoc, ih (n / b) (Nat.div_lt_self (by omega) hb), List.cons_append,
        intDigits_cons_digitChar hb' (Nat.mod_lt n (by omega)), List.nil_append,
        Nat.div_add_mod']

theorem intMagnitude_toDigits {b : ℕ} (hb : 1 < b) (hb' : b ≤ 16) (n : ℕ) :
    intMagnitude b (Nat.toDigits b n) = some n := by
  have hx : ∀ c, c = 'x' ∨ c = 'X' → (Nat.toDigits b n).take 2 ≠ ['0', c] := by
    intro c hc h
    have hm : c ∈ (Nat.toDigits b n).take 2 := by rw [h]; simp
    have hp := plain_of_mem_toDigits hb hb' (List.mem_of_mem_take hm)
    rcases hc with rfl | rfl
    · exact hp.hex.1 rfl
    · exact hp.hex.2 rfl
  have h := intDigits_toDigits_append hb hb' n []
  rw [List.append_nil] at h
  rw [intMagnitude, if_neg (by rintro ⟨-, h | h⟩ <;> exact hx _ (by simp) h), h]
  rfl

/-- `int` reads a printed number back. -/
theorem pyInt_toDigits {b : ℕ} (hb : 1 < b) (hb' : b ≤ 16) (n : ℕ) :
    pyInt b (Nat.toDigits b n) = some (n : ℤ) := by
  have hplain := fun c (hc : c ∈ Nat.toDigits b n) => plain_of_mem_toDigits hb hb' hc
  obtain ⟨c, t, ht⟩ := List.exists_cons_of_ne_nil (Nat.toDigits_ne_nil (n := n) (b := b))
  have hc := hplain c (by rw [ht]; exact List.mem_cons_self)
  rw [pyInt_of_ascii (fun c hc => (hplain c hc).ascii)
    (fun c hc => isCSpace_eq_false (hplain c hc).space), ht, signed_of_head _ hc.sign, ← ht,
    intMagnitude_toDigits hb hb']
  rfl

/-! ## `str`, `hex` and `stoi` -/

/-- `str(i)` of an integer. -/
def pyStr : ℤ → Str
  | .ofNat n => Nat.toDigits 10 n
  | .negSucc n => '-' :: Nat.toDigits 10 (n + 1)

/-- `hex(n)` of a natural number. -/
def pyHex (n : ℕ) : Str := '0' :: 'x' :: Nat.toDigits 16 n

/-- The unsigned part of `std::stoi`: the longest run of digits, at least one. -/
def stoiDigits (s : Str) : Option ℕ :=
  let ds := s.takeWhile Char.isDigit
  if ds = [] then none else some (Nat.ofDigitChars 10 ds 0)

/-- The range of `int`. -/
def IsInt (v : ℤ) : Prop := -2147483648 ≤ v ∧ v ≤ 2147483647

instance : DecidablePred IsInt := fun v => by unfold IsInt; infer_instance

/-- A value out of the range of `int` is a thrown `out_of_range`. -/
def checkInt (v : ℤ) : Option ℤ := if IsInt v then some v else none

/-- `std::stoi`; `none` is a thrown `invalid_argument` or `out_of_range`. -/
def stoi (s : Str) : Option ℤ := (signed stoiDigits (s.dropWhile isCSpace)).bind checkInt

theorem isDigit_of_mem_decimal {n : ℕ} {c : Char} (h : c ∈ Nat.toDigits 10 n) :
    c.isDigit = true := Nat.isDigit_of_mem_toDigits (by decide) (by decide) h

theorem stoiDigits_toDigits_append (n : ℕ) {s : Str} (hs : ∀ c ∈ s.head?, c.isDigit = false) :
    stoiDigits (Nat.toDigits 10 n ++ s) = some n := by
  have hstop : s.takeWhile Char.isDigit = [] := by
    cases s with
    | nil => rfl
    | cons c s => exact List.takeWhile_cons_of_neg (by simp [hs c (by simp)])
  unfold stoiDigits
  rw [List.takeWhile_append_of_pos fun c => isDigit_of_mem_decimal, hstop, List.append_nil]
  simp [Nat.ofDigitChars_ten_toDigits]

/-- `stoi` reads a printed integer back and stops at what follows it; an integer out of range it
rejects. -/
theorem stoi_pyStr_append (v : ℤ) {s : Str} (hs : ∀ c ∈ s.head?, c.isDigit = false) :
    stoi (pyStr v ++ s) = checkInt v := by
  cases v with
  | ofNat n =>
    obtain ⟨c, t, ht⟩ := List.exists_cons_of_ne_nil (Nat.toDigits_ne_nil (n := n) (b := 10))
    have hc := plain_of_mem_decimal (n := n) (c := c) (by rw [ht]; exact List.mem_cons_self)
    have hsign : signed stoiDigits (c :: (t ++ s)) = (stoiDigits (c :: (t ++ s))).map Nat.cast :=
      signed_of_head stoiDigits hc.sign (t ++ s)
    have hspace : ¬ isCSpace c = true := by simp [isCSpace_eq_false hc.space]
    rw [stoi, pyStr, ht, List.cons_append, List.dropWhile_cons_of_neg hspace, hsign,
      ← List.cons_append, ← ht, stoiDigits_toDigits_append n hs]
    rfl
  | negSucc n =>
    rw [stoi, pyStr, List.cons_append, List.dropWhile_cons_of_neg (by decide), signed_minus,
      stoiDigits_toDigits_append (n + 1) hs, Option.map_some, Option.bind_some,
      Int.neg_ofNat_succ]

/-- A number alone that an `int` holds. -/
theorem stoi_pyStr {k : ℕ} (hk : k < 2 ^ 31) : stoi (pyStr k) = some (k : ℤ) := by
  have hread := stoi_pyStr_append k (s := []) (by simp)
  rw [List.append_nil, checkInt, if_pos] at hread
  · exact hread
  · unfold IsInt
    omega

theorem isSpace_of_mem_pyStr {v : ℤ} {c : Char} (h : c ∈ pyStr v) : isSpace c = false := by
  have hdig : ∀ n, ∀ c ∈ Nat.toDigits 10 n, isSpace c = false := fun n c hc =>
    (plain_of_mem_decimal hc).space
  cases v with
  | ofNat n => exact hdig n c h
  | negSucc n =>
    rcases List.mem_cons.mp h with rfl | h
    · rfl
    · exact hdig (n + 1) c h

theorem pyStr_ne_nil (v : ℤ) : pyStr v ≠ [] := by
  cases v with
  | ofNat n => exact Nat.toDigits_ne_nil
  | negSucc n => exact List.cons_ne_nil _ _

/-- `int` reads a printed integer back. -/
theorem pyInt_pyStr (v : ℤ) : pyInt 10 (pyStr v) = some v := by
  have hten : 1 < 10 ∧ 10 ≤ 16 := by omega
  cases v with
  | ofNat n => exact pyInt_toDigits hten.1 hten.2 n
  | negSucc n =>
    have hspace : ∀ c ∈ pyStr (.negSucc n), isCSpace c = false := fun c hc =>
      isCSpace_eq_false (isSpace_of_mem_pyStr hc)
    have hascii : ∀ c ∈ pyStr (.negSucc n), c.toNat < 127 := by
      intro c hc
      rcases List.mem_cons.mp hc with rfl | hc
      · decide
      · exact (plain_of_mem_decimal hc).ascii
    rw [pyInt_of_ascii hascii hspace, pyStr, signed_minus, intMagnitude_toDigits hten.1 hten.2,
      Option.map_some, Int.neg_ofNat_succ]

theorem lineBreak_notMem_pyStr (v : ℤ) : '\n' ∉ pyStr v ∧ '\r' ∉ pyStr v := by
  have hdig : ∀ n, '\n' ∉ Nat.toDigits 10 n ∧ '\r' ∉ Nat.toDigits 10 n := fun n =>
    ⟨fun h => (plain_of_mem_decimal h).newline.1 rfl, fun h => (plain_of_mem_decimal h).newline.2 rfl⟩
  cases v with
  | ofNat n => exact hdig n
  | negSucc n =>
    rw [pyStr, List.mem_cons, not_or, List.mem_cons, not_or]
    exact ⟨⟨by decide, (hdig (n + 1)).1⟩, by decide, (hdig (n + 1)).2⟩

theorem lineBreak_notMem_pyHex (n : ℕ) : '\n' ∉ pyHex n ∧ '\r' ∉ pyHex n := by
  simp only [pyHex, List.mem_cons, not_or]
  exact ⟨⟨by decide, by decide, fun h => (plain_of_mem_hex h).newline.1 rfl⟩, by decide, by decide,
    fun h => (plain_of_mem_hex h).newline.2 rfl⟩

theorem newline_notMem_pyStr (v : ℤ) : '\n' ∉ pyStr v := (lineBreak_notMem_pyStr v).1

theorem newline_notMem_pyHex (n : ℕ) : '\n' ∉ pyHex n := (lineBreak_notMem_pyHex n).1

/-! ## Lines -/

/-- No line break in the text, as Python reads files. For `getline` only `\n` is one. -/
structure OneLine (s : Str) : Prop where
  newline : '\n' ∉ s
  carriage : '\r' ∉ s

instance : DecidablePred OneLine := fun s =>
  decidable_of_iff ('\n' ∉ s ∧ '\r' ∉ s) ⟨fun ⟨h1, h2⟩ => ⟨h1, h2⟩, fun h => ⟨h.1, h.2⟩⟩

@[simp] theorem oneLine_nil : OneLine [] := ⟨List.not_mem_nil, List.not_mem_nil⟩

@[simp] theorem oneLine_cons {c : Char} {s : Str} :
    OneLine (c :: s) ↔ (c ≠ '\n' ∧ c ≠ '\r') ∧ OneLine s := by
  constructor
  · intro h
    obtain ⟨hn, hns⟩ := not_or.mp (mt List.mem_cons.mpr h.newline)
    obtain ⟨hr, hrs⟩ := not_or.mp (mt List.mem_cons.mpr h.carriage)
    exact ⟨⟨Ne.symm hn, Ne.symm hr⟩, hns, hrs⟩
  · rintro ⟨⟨hn, hr⟩, hs⟩
    refine ⟨fun h => ?_, fun h => ?_⟩
    · exact (List.mem_cons.mp h).elim (fun heq => hn heq.symm) hs.newline
    · exact (List.mem_cons.mp h).elim (fun heq => hr heq.symm) hs.carriage

@[simp] theorem oneLine_append {s t : Str} : OneLine (s ++ t) ↔ OneLine s ∧ OneLine t := by
  induction s with
  | nil => simp
  | cons c s ih => simp [ih, and_assoc]

@[simp] theorem oneLine_pyStr (v : ℤ) : OneLine (pyStr v) :=
  ⟨(lineBreak_notMem_pyStr v).1, (lineBreak_notMem_pyStr v).2⟩

@[simp] theorem oneLine_pyHex (n : ℕ) : OneLine (pyHex n) :=
  ⟨(lineBreak_notMem_pyHex n).1, (lineBreak_notMem_pyHex n).2⟩

/-- The lines that `getline` reads from a text, without their terminators. -/
def getlines : Str → List Str
  | [] => []
  | c :: cs =>
    if c = '\n' then [] :: getlines cs
    else match getlines cs with
      | [] => [[c]]
      | l :: ls => (c :: l) :: ls

/-- The lines of a text with their terminators. -/
def splitLines : Str → List Str
  | [] => []
  | c :: cs =>
    if c = '\n' then ['\n'] :: splitLines cs
    else match splitLines cs with
      | [] => [[c]]
      | l :: ls => (c :: l) :: ls

/-- A text as Python reads it from a file: `\r\n` and `\r` are `\n`. `cr` says that the character in
front was a `\r`. -/
def newlines (cr : Bool) : Str → Str
  | [] => []
  | c :: cs =>
    if c = '\r' then '\n' :: newlines true cs
    else if cr = true ∧ c = '\n' then newlines false cs
    else c :: newlines false cs

/-- `readlines()`. -/
def readlines (text : Str) : List Str := splitLines (newlines false text)

theorem getlines_append {l : Str} (hl : '\n' ∉ l) (s : Str) :
    getlines (l ++ '\n' :: s) = l :: getlines s := by
  induction l with
  | nil => simp [getlines]
  | cons c l ih =>
    rw [List.mem_cons, not_or] at hl
    rw [List.cons_append, getlines, if_neg (Ne.symm hl.1), ih hl.2]

/-- Lines written one by one are read back. -/
theorem getlines_flatMap {ls : List Str} (h : ∀ l ∈ ls, '\n' ∉ l) :
    getlines (ls.flatMap fun l => l ++ ['\n']) = ls := by
  induction ls with
  | nil => rfl
  | cons l ls ih =>
    rw [List.flatMap_cons, List.append_assoc, List.singleton_append,
      getlines_append (h l List.mem_cons_self), ih fun x hx => h x (List.mem_cons_of_mem l hx)]

theorem splitLines_append {l : Str} (hl : '\n' ∉ l) (s : Str) :
    splitLines (l ++ '\n' :: s) = (l ++ ['\n']) :: splitLines s := by
  induction l with
  | nil => simp [splitLines]
  | cons c l ih =>
    rw [List.mem_cons, not_or] at hl
    rw [List.cons_append, splitLines, if_neg (Ne.symm hl.1), ih hl.2, List.cons_append]

theorem newlines_append {l : Str} (hl : OneLine l) (s : Str) :
    newlines false (l ++ '\n' :: s) = l ++ '\n' :: newlines false s := by
  induction l with
  | nil =>
    rw [List.nil_append, newlines, if_neg (by decide), if_neg (by decide)]
    rfl
  | cons c l ih =>
    obtain ⟨⟨-, hr⟩, hl⟩ := oneLine_cons.mp hl
    rw [List.cons_append, newlines, if_neg hr, if_neg (by simp), ih hl, List.cons_append]

theorem readlines_append {l : Str} (hl : OneLine l) (s : Str) :
    readlines (l ++ '\n' :: s) = (l ++ ['\n']) :: readlines s := by
  unfold readlines
  rw [newlines_append hl, splitLines_append hl.newline]

/-- Lines written one by one are read back with their terminators. -/
theorem readlines_flatMap {ls : List Str} (h : ∀ l ∈ ls, OneLine l) :
    readlines (ls.flatMap fun l => l ++ ['\n']) = ls.map fun l => l ++ ['\n'] := by
  induction ls with
  | nil => rfl
  | cons l ls ih =>
    rw [List.flatMap_cons, List.append_assoc, List.singleton_append,
      readlines_append (h l List.mem_cons_self), ih fun x hx => h x (List.mem_cons_of_mem l hx)]
    rfl

/-- A line of a text holds no line break before its end. -/
theorem eq_nil_of_mem_splitLines {text l : Str} (hl : l ∈ splitLines text) :
    ∀ a b, l = a ++ '\n' :: b → b = [] := by
  induction text generalizing l with
  | nil => cases hl
  | cons c cs ih =>
    intro a b hab
    rw [splitLines] at hl
    split_ifs at hl with hc
    · rcases List.mem_cons.mp hl with rfl | hl
      · cases a with
        | nil => exact (List.cons.inj hab).2.symm
        | cons d a => simp at hab
      · exact ih hl a b hab
    · -- a line that goes on has its first character in front of a line of the rest
      have htail : ∀ m, m ∈ splitLines cs ∨ m = [] → l = c :: m → b = [] := by
        rintro m hm rfl
        cases a with
        | nil => exact absurd (List.cons.inj hab).1 hc
        | cons d a =>
          obtain ⟨-, rfl⟩ := List.cons.inj hab
          rcases hm with hm | hm
          · exact ih hm a b rfl
          · simp at hm
      split at hl
      · exact htail [] (.inr rfl) (List.mem_singleton.mp hl)
      · next m ms hms =>
        rcases List.mem_cons.mp hl with rfl | hl
        · exact htail m (.inl (by rw [hms]; exact List.mem_cons_self)) rfl
        · exact ih (by rw [hms]; exact List.mem_cons_of_mem m hl) a b hab

/-- Stripped of what is around it, a line holds no line break. -/
theorem newline_notMem_strip {text l : Str} (hl : l ∈ readlines text) : '\n' ∉ strip l := by
  intro hmem
  have hne : strip l ≠ [] := List.ne_nil_of_mem hmem
  obtain ⟨a, ha⟩ : l.dropWhile isSpace <:+ l := List.dropWhile_suffix _
  obtain ⟨b, hb⟩ : strip l <+: l.dropWhile isSpace := List.rdropWhile_prefix _ _
  obtain ⟨u, v, huv⟩ := List.append_of_mem hmem
  have hline : l = (a ++ u) ++ '\n' :: (v ++ b) := by
    rw [← ha, ← hb, huv]
    simp
  have hv := (List.append_eq_nil_iff.mp (eq_nil_of_mem_splitLines hl _ _ hline)).1
  have hlast : isSpace ((strip l).getLast hne) = true := by
    simp only [huv, hv]
    rw [List.getLast_append_of_ne_nil _ (List.cons_ne_nil _ _)]
    rfl
  exact List.rdropWhile_last_not _ _ hne hlast

/-- `for line in lines: line_num += 1; if p(line): break`: the lines read up to the first one with
the property, all of them if there is none. -/
def countTo (p : Str → Bool) : List Str → ℕ
  | [] => 0
  | l :: ls => if p l then 1 else countTo p ls + 1

theorem countTo_append {p : Str → Bool} {pre : List Str} {l : Str} (hpre : ∀ x ∈ pre, p x = false)
    (hl : p l = true) (post : List Str) : countTo p (pre ++ l :: post) = pre.length + 1 := by
  induction pre with
  | nil => rw [List.nil_append, countTo, if_pos hl]; rfl
  | cons x pre ih =>
    rw [List.cons_append, countTo, if_neg (by simp [hpre x]), List.length_cons,
      ih fun y hy => hpre y (List.mem_cons_of_mem x hy)]

theorem countTo_eq_length {p : Str → Bool} {ls : List Str} (h : ∀ l ∈ ls, p l = false) :
    countTo p ls = ls.length := by
  induction ls with
  | nil => rfl
  | cons l ls ih =>
    obtain ⟨hl, hls⟩ := List.forall_mem_cons.mp h
    rw [countTo, if_neg (by simp [hl]), ih hls, List.length_cons]

/-! ## Splitting and indexing -/

/-- `s.split(maxsplit=n)`: the first `n` words and what follows them. -/
def pySplit : ℕ → Str → List Str
  | 0, s => if s.dropWhile isSpace = [] then [] else [s.dropWhile isSpace]
  | n + 1, s =>
    let r := s.dropWhile isSpace
    if r = [] then []
    else r.takeWhile (fun c => !isSpace c) :: pySplit n (r.dropWhile fun c => !isSpace c)

theorem pySplit_pad {pad : Str} (hpad : ∀ c ∈ pad, isSpace c = true) (n : ℕ) (s : Str) :
    pySplit n (pad ++ s) = pySplit n s := by
  cases n <;> simp only [pySplit, List.dropWhile_append_of_pos hpad]

theorem pySplit_cons_space {c : Char} (hc : isSpace c = true) (n : ℕ) (s : Str) :
    pySplit n (c :: s) = pySplit n s := by
  have hpad : ∀ d ∈ [c], isSpace d = true := by simpa using hc
  exact pySplit_pad hpad n s

theorem pySplit_of_blank {s : Str} (hs : ∀ c ∈ s, isSpace c = true) (n : ℕ) : pySplit n s = [] := by
  have hdrop : s.dropWhile isSpace = [] := List.dropWhile_eq_nil_iff.mpr hs
  cases n <;> simp only [pySplit, hdrop, if_true]

/-- The first word is the text up to a space. -/
theorem pySplit_cons {c : Char} (hc : isSpace c = false) (n : ℕ) (s : Str) : pySplit (n + 1) (c :: s) =
    (c :: s.takeWhile fun d => !isSpace d) :: pySplit n (s.dropWhile fun d => !isSpace d) := by
  have hfront : (c :: s).dropWhile isSpace = c :: s := List.dropWhile_cons_of_neg (by simp [hc])
  simp only [pySplit, hfront, List.cons_ne_nil, if_false]
  rw [List.takeWhile_cons_of_pos (by simp [hc]), List.dropWhile_cons_of_pos (by simp [hc])]

/-- A word in front of a space. -/
theorem pySplit_word {w : Str} (hne : w ≠ []) (hw : ∀ c ∈ w, isSpace c = false) {s : Str}
    (hs : ∀ c ∈ s.head?, isSpace c = true) (n : ℕ) : pySplit (n + 1) (w ++ s) = w :: pySplit n s := by
  obtain ⟨c, w, rfl⟩ := List.exists_cons_of_ne_nil hne
  obtain ⟨hc, hw⟩ := List.forall_mem_cons.mp hw
  have hpos : ∀ d ∈ w, (!isSpace d) = true := fun d hd => by rw [hw d hd]; rfl
  have hstop : s.takeWhile (fun d => !isSpace d) = [] ∧ s.dropWhile (fun d => !isSpace d) = s := by
    cases s with
    | nil => exact ⟨rfl, rfl⟩
    | cons d s => simp [hs d rfl]
  rw [List.cons_append, pySplit_cons hc, List.takeWhile_append_of_pos hpos,
    List.dropWhile_append_of_pos hpos, hstop.1, hstop.2, List.append_nil]

/-- `l[i]`, where a negative index counts from the end; `none` is an IndexError. -/
def pyGet {α : Type*} (l : List α) (i : ℤ) : Option α :=
  if 0 ≤ i then l[i.toNat]? else if 0 ≤ l.length + i then l[(l.length + i).toNat]? else none

/-- `l[i:j]` for indices that are not negative. -/
def slice {α : Type*} (l : List α) (i j : ℕ) : List α := (l.take j).drop i

theorem slice_append {α : Type*} (pre l : List α) (n : ℕ) :
    slice (pre ++ l) pre.length (pre.length + n) = l.take n := by
  unfold slice
  rw [List.take_length_add_append, List.drop_left]

theorem pyGet_natCast {α : Type*} (l : List α) (n : ℕ) : pyGet l n = l[n]? := by
  unfold pyGet
  rw [if_pos (Int.natCast_nonneg n), Int.toNat_natCast]

end Chars
