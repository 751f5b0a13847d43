import Mathlib

/-!
# Searching for a piece of a list

`find pat s` is where a pattern first occurs, `before` and `after` are the two parts of a list cut at
that place. What a text is made of decides where a pattern can occur: a separator that the pattern
does not have keeps the occurrences on its two sides apart (`infix_append_cons_iff`,
`find_append_cons`).
-/

namespace Search

variable {α : Type*}

/-! ## Where a pattern occurs -/

theorem infix_append_cons_iff {pat a b : List α} {d : α} (hd : d ∉ pat) :
    pat <:+: a ++ d :: b ↔ pat <:+: a ∨ pat <:+: b := by
  constructor
  · rintro ⟨s, t, h⟩
    rcases List.append_eq_append_iff.mp h with ⟨c, rfl, -⟩ | ⟨c, hsp, hc⟩
    · exact .inl ⟨s, c, rfl⟩
    · cases c with
      | nil =>
        rw [List.append_nil] at hsp
        exact .inl ⟨s, [], by rw [List.append_nil, hsp]⟩
      | cons x c =>
        obtain ⟨rfl, rfl⟩ := List.cons.inj hc
        -- the pattern ends behind the separator, so it starts behind it
        rcases List.append_eq_append_iff.mp hsp with ⟨e, -, he⟩ | ⟨e, -, he⟩
        · exact absurd (he ▸ List.mem_append_right e List.mem_cons_self) hd
        · cases e with
          | nil =>
            rw [List.nil_append] at he
            exact absurd (he ▸ List.mem_cons_self) hd
          | cons y e =>
            obtain ⟨rfl, rfl⟩ := List.cons.inj he
            exact .inr ⟨e, t, rfl⟩
  · rintro (⟨s, t, rfl⟩ | ⟨s, t, rfl⟩)
    · exact ⟨s, t ++ d :: b, by simp⟩
    · exact ⟨a ++ d :: s, t, by simp⟩

/-- Between two separators. -/
theorem infix_append_cons_append_cons_iff {pat a b c : List α} {d e : α} (hd : d ∉ pat)
    (he : e ∉ pat) : pat <:+: a ++ d :: b ++ e :: c ↔ pat <:+: a ∨ pat <:+: b ∨ pat <:+: c := by
  rw [infix_append_cons_iff he, infix_append_cons_iff hd, or_assoc]

theorem not_infix_of_notMem {pat s : List α} {d : α} (hd : d ∈ pat) (hs : d ∉ s) : ¬ pat <:+: s :=
  fun h => hs (h.subset hd)

variable [DecidableEq α]

/-- The place where a pattern first occurs. -/
def find (pat : List α) : List α → Option ℕ
  | [] => if pat = [] then some 0 else none
  | c :: s => if pat <+: c :: s then some 0 else (find pat s).map (· + 1)

theorem find_isSome_iff {pat s : List α} : (find pat s).isSome ↔ pat <:+: s := by
  induction s with
  | nil =>
    unfold find
    split_ifs with h
    · simp [h]
    · simp [h]
  | cons c s ih =>
    unfold find
    rw [List.infix_cons_iff]
    split_ifs with h
    · simp [h]
    · simp [h, ih]

theorem find_eq_none {pat s : List α} (h : ¬ pat <:+: s) : find pat s = none := by
  rw [← find_isSome_iff, Bool.not_eq_true, Option.isSome_eq_false_iff, Option.isNone_iff_eq_none] at h
  exact h

theorem find_of_prefix {pat s : List α} (h : pat <+: s) : find pat s = some 0 := by
  cases s with
  | nil =>
    unfold find
    rw [if_pos (List.prefix_nil.mp h)]
  | cons c s =>
    unfold find
    rw [if_pos h]

/-- Where no occurrence begins the search goes on. -/
theorem find_append {pat a b : List α} (h : ∀ c t, t ≠ [] → a = c ++ t → ¬ pat <+: t ++ b) :
    find pat (a ++ b) = (find pat b).map (· + a.length) := by
  induction a with
  | nil => simp
  | cons x a ih =>
    have hnow : ¬ pat <+: x :: (a ++ b) := h [] (x :: a) (List.cons_ne_nil _ _) rfl
    have hrest := ih fun c t ht hct => h (x :: c) t ht (by rw [hct]; rfl)
    rw [List.cons_append, find, if_neg hnow, hrest, Option.map_map, List.length_cons]
    rfl

/-- The search goes past a separator that the pattern does not have. -/
theorem find_append_cons {pat a b : List α} {d : α} (hne : pat ≠ []) (hd : d ∉ pat)
    (ha : ¬ pat <:+: a) : find pat (a ++ d :: b) = (find pat b).map (· + (a.length + 1)) := by
  have hstart : ∀ c t, t ≠ [] → a ++ [d] = c ++ t → ¬ pat <+: t ++ b := by
    rintro c t ht hct ⟨u, hu⟩
    -- such an occurrence would lie in `a`, as it does not reach the separator
    obtain ⟨t, x, rfl⟩ := (List.eq_nil_or_concat t).resolve_left ht
    rw [List.concat_eq_append, ← List.append_assoc] at hct
    obtain ⟨hac, hdx⟩ := List.append_inj' hct rfl
    obtain rfl := (List.cons.inj hdx).1
    rw [List.concat_eq_append, List.append_assoc] at hu
    rcases List.append_eq_append_iff.mp hu with ⟨e, rfl, -⟩ | ⟨e, rfl, he⟩
    · exact ha ⟨c, e, by rw [hac, List.append_assoc]⟩
    · cases e with
      | nil => exact ha ⟨c, [], by rw [hac]; simp⟩
      | cons y e =>
        obtain ⟨rfl, -⟩ := List.cons.inj he
        exact hd (by simp)
  rw [List.append_cons, find_append hstart, List.length_append, List.length_singleton]

/-- The search ends at an occurrence that no other one begins in front of. -/
theorem find_append_self {pat a : List α} (h : ¬ pat <:+: a ++ pat.dropLast) (b : List α) :
    find pat (a ++ (pat ++ b)) = some a.length := by
  have hstart : ∀ c t, t ≠ [] → a = c ++ t → ¬ pat <+: t ++ (pat ++ b) := by
    rintro c t ht rfl hpre
    -- such an occurrence ends before the last element of the other one
    have hshort : t ++ pat.dropLast <+: t ++ (pat ++ b) :=
      (List.prefix_append_right_inj t).mpr
        ((List.dropLast_prefix pat).trans (List.prefix_append pat b))
    have hlen : pat.length ≤ (t ++ pat.dropLast).length := by
      have hpos := List.length_pos_of_ne_nil ht
      rw [List.length_append, List.length_dropLast]
      omega
    have hin := List.prefix_of_prefix_length_le hpre hshort hlen
    rw [List.append_assoc] at h
    exact h (hin.isInfix.trans (List.suffix_append c _).isInfix)
  rw [find_append hstart, find_of_prefix (List.prefix_append pat b), Option.map_some, Nat.zero_add]

/-- The search goes past what does not hold the first element of the pattern. -/
theorem find_append_of_notMem {c : α} {p a : List α} (ha : c ∉ a) (b : List α) :
    find (c :: p) (a ++ b) = (find (c :: p) b).map (· + a.length) := by
  apply find_append
  rintro u t ht rfl ⟨v, hv⟩
  obtain ⟨x, t, rfl⟩ := List.exists_cons_of_ne_nil ht
  obtain ⟨rfl, -⟩ := List.cons.inj hv
  exact ha (by simp)

/-! ## The parts of a list -/

/-- What is in front of the first occurrence of a pattern, everything if there is none. -/
def before (pat s : List α) : List α :=
  match find pat s with
  | some i => s.take i
  | none => s

/-- What is behind the first occurrence of a pattern. -/
def after (pat s : List α) : Option (List α) := (find pat s).map fun i => s.drop (i + pat.length)

theorem before_prefix (pat s : List α) : before pat s <+: s := by
  unfold before
  cases find pat s with
  | none => exact List.prefix_refl s
  | some i => exact List.take_prefix i s

theorem before_append {c : α} {p a : List α} (ha : c ∉ a) (b : List α) :
    before (c :: p) (a ++ (c :: p ++ b)) = a := by
  unfold before
  rw [find_append_of_notMem ha, find_of_prefix (List.prefix_append _ _)]
  simp

theorem after_append {c : α} {p a : List α} (ha : c ∉ a) (b : List α) :
    after (c :: p) (a ++ (c :: p ++ b)) = some b := by
  unfold after
  rw [find_append_of_notMem ha, find_of_prefix (List.prefix_append _ _), Option.map_some,
    Option.map_some, Nat.zero_add, ← List.length_append, ← List.append_assoc, List.drop_left]

theorem before_of_notMem {c : α} {p s : List α} (hs : c ∉ s) : before (c :: p) s = s := by
  unfold before
  rw [find_eq_none (not_infix_of_notMem List.mem_cons_self hs)]

end Search
