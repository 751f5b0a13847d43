import Mathlib

/-!
# Naming values one after the other

A table gives every value a name; a value that asks for a name which another one bears gets some
unused name from a `Supply` instead, so no two values come to share a name (`renameAll_distinct`).
`renameAll` asks for `req k` on behalf of value `k`, for the first values in order. The values get
exactly the names that they ask for when nothing bears such a name at its turn, which can be read off
the table at the start (`renameAll_eq_iff`).
-/

namespace Names

/-- Where the names come from that are given out for a taken one. -/
structure Supply (σ N : Type*) where
  pick : σ → List N → N → N × σ
  notMem : ∀ s taken name, (pick s taken name).1 ∉ taken

/-- The names in use: those of the values in question, in order, and those of all others. -/
structure Table (σ N : Type*) where
  state : σ
  others : List N
  values : List N

variable {σ N : Type*}

/-- The names that value `k` cannot have. -/
def Table.taken (T : Table σ N) (k : ℕ) : List N := T.others ++ T.values.eraseIdx k

theorem Table.mem_taken {T : Table σ N} {k : ℕ} {x : N} :
    x ∈ T.taken k ↔ x ∈ T.others ∨ ∃ j, j ≠ k ∧ T.values[j]? = some x := by
  unfold taken
  rw [List.mem_append, List.mem_eraseIdx_iff_getElem?]

/-- No two values share a name, those without a name apart. -/
def Table.Distinct (T : Table σ N) (unnamed : N) : Prop :=
  (T.others ++ T.values).Pairwise fun x y => x = y → x = unnamed

variable [DecidableEq N]

/-- Value `k` asks for a name. -/
def setName (P : Supply σ N) (T : Table σ N) (k : ℕ) (name : N) : Table σ N :=
  if name ∈ T.taken k then
    let (unused, state) := P.pick T.state (T.taken k) name
    { T with values := T.values.set k unused, state := state }
  else { T with values := T.values.set k name }

/-- The first `n` values ask for their names. -/
def renameAll (P : Supply σ N) (req : ℕ → N) (T : Table σ N) : ℕ → Table σ N
  | 0 => T
  | n + 1 => setName P (renameAll P req T n) n (req n)

section SetName

variable (P : Supply σ N) (T : Table σ N) (k : ℕ) (name : N)

theorem setName_of_notMem (h : name ∉ T.taken k) :
    setName P T k name = { T with values := T.values.set k name } := if_neg h

theorem setName_of_mem (h : name ∈ T.taken k) : setName P T k name =
    { T with values := T.values.set k (P.pick T.state (T.taken k) name).1
             state := (P.pick T.state (T.taken k) name).2 } := if_pos h

/-- Whatever happens, the value gets a name that nothing else bears. -/
theorem exists_setName_values : ∃ x, x ∉ T.taken k ∧
    (setName P T k name).values = T.values.set k x := by
  unfold setName
  split_ifs with h
  · exact ⟨_, P.notMem T.state (T.taken k) name, rfl⟩
  · exact ⟨name, h, rfl⟩

@[simp] theorem setName_others : (setName P T k name).others = T.others := by
  unfold setName
  split_ifs <;> rfl

@[simp] theorem length_setName_values : (setName P T k name).values.length = T.values.length := by
  obtain ⟨x, -, hx⟩ := exists_setName_values P T k name
  rw [hx, List.length_set]

/-- The other values keep their names. -/
theorem setName_values_ne {j : ℕ} (hj : j ≠ k) :
    (setName P T k name).values[j]? = T.values[j]? := by
  obtain ⟨x, -, hx⟩ := exists_setName_values P T k name
  rw [hx, List.getElem?_set_ne hj.symm]

/-- A value gets the name it asks for just if nothing else bears it. -/
theorem setName_values_self_iff (hk : k < T.values.length) :
    (setName P T k name).values[k]? = some name ↔ name ∉ T.taken k := by
  constructor
  · intro h
    obtain ⟨x, hfree, hx⟩ := exists_setName_values P T k name
    rw [hx, List.getElem?_set_self hk] at h
    exact Option.some.inj h ▸ hfree
  · intro h
    rw [setName_of_notMem P T k name h]
    exact List.getElem?_set_self hk

theorem pairwise_set {α : Type*} {R : α → α → Prop} (hsymm : ∀ x y, R x y → R y x) {l : List α}
    {i : ℕ} {x : α} (hl : l.Pairwise R) (hx : ∀ y ∈ l.eraseIdx i, R x y) : (l.set i x).Pairwise R := by
  induction l generalizing i with
  | nil => exact List.Pairwise.nil
  | cons y l ih =>
    obtain ⟨hy, hl⟩ := List.pairwise_cons.mp hl
    cases i with
    | zero => exact List.pairwise_cons.mpr ⟨hx, hl⟩
    | succ i =>
      obtain ⟨hxy, hx⟩ := List.forall_mem_cons.mp hx
      refine List.pairwise_cons.mpr ⟨fun z hz => ?_, ih hl hx⟩
      rcases List.mem_or_eq_of_mem_set hz with hz | rfl
      · exact hy z hz
      · exact hsymm _ _ hxy

/-- A name that is asked for is shared with nothing. -/
theorem setName_distinct {unnamed : N} (h : T.Distinct unnamed) :
    (setName P T k name).Distinct unnamed := by
  obtain ⟨x, hfree, hx⟩ := exists_setName_values P T k name
  unfold Table.Distinct at h ⊢
  have hset : T.others ++ T.values.set k x = (T.others ++ T.values).set (T.others.length + k) x := by
    rw [List.set_append_right _ _ (Nat.le_add_right _ k), Nat.add_sub_cancel_left]
  rw [setName_others, hx, hset]
  apply pairwise_set (fun x y hxy heq => heq.trans (hxy heq.symm)) h
  intro y hy heq
  rw [List.eraseIdx_append_of_length_le (Nat.le_add_right _ k), Nat.add_sub_cancel_left] at hy
  exact absurd (heq ▸ hy) hfree

end SetName

section RenameAll

variable (P : Supply σ N) (req : ℕ → N) (T : Table σ N)

@[simp] theorem renameAll_others (n : ℕ) : (renameAll P req T n).others = T.others := by
  induction n with
  | zero => rfl
  | succ n ih => rw [renameAll, setName_others, ih]

@[simp] theorem length_renameAll_values (n : ℕ) :
    (renameAll P req T n).values.length = T.values.length := by
  induction n with
  | zero => rfl
  | succ n ih => rw [renameAll, length_setName_values, ih]

theorem renameAll_distinct {unnamed : N} (h : T.Distinct unnamed) (n : ℕ) :
    (renameAll P req T n).Distinct unnamed := by
  induction n with
  | zero => exact h
  | succ n ih => exact setName_distinct P _ n _ ih

/-- The values behind the first `n` still have their old names. -/
theorem renameAll_values_of_le {n k : ℕ} (h : n ≤ k) :
    (renameAll P req T n).values[k]? = T.values[k]? := by
  induction n with
  | zero => rfl
  | succ n ih => rw [renameAll, setName_values_ne P _ n _ (by omega), ih (by omega)]

/-- A value keeps the name that its turn has given it. -/
theorem renameAll_values_of_lt {n k : ℕ} (h : k < n) :
    (renameAll P req T n).values[k]? = (renameAll P req T (k + 1)).values[k]? := by
  induction n with
  | zero => omega
  | succ n ih =>
    by_cases hk : k = n
    · rw [hk]
    · rw [renameAll, setName_values_ne P _ n _ hk, ih (by omega)]

variable {req}

/-- Where the values before it have what they asked for, a value gets its own name just if nothing
bore it at the start, the values before it apart. -/
theorem renameAll_values_iff (hreq : Function.Injective req) {k : ℕ} (hk : k < T.values.length)
    (hdone : ∀ j < k, (renameAll P req T k).values[j]? = some (req j)) :
    (renameAll P req T (k + 1)).values[k]? = some (req k) ↔
      req k ∉ T.others ∧ ∀ j, k < j → T.values[j]? ≠ some (req k) := by
  rw [renameAll, setName_values_self_iff _ _ _ _ (by rwa [length_renameAll_values]),
    Table.mem_taken, renameAll_others, not_or]
  apply and_congr_right
  intro _
  constructor
  · intro h j hj heq
    apply h
    refine ⟨j, by omega, ?_⟩
    rw [renameAll_values_of_le P req T hj.le, heq]
  · rintro h ⟨j, hne, heq⟩
    rcases Nat.lt_or_gt_of_ne hne with hlt | hgt
    · rw [hdone j hlt] at heq
      exact hne (hreq (Option.some.inj heq))
    · rw [renameAll_values_of_le P req T hgt.le] at heq
      exact h j hgt heq

/-- **Who gets what.** All values get the names that they ask for just if none of these names is
borne by another kind of value or by a value whose turn comes later. -/
theorem renameAll_eq_iff (hreq : Function.Injective req) :
    (∀ k < T.values.length, (renameAll P req T T.values.length).values[k]? = some (req k)) ↔
      ∀ k < T.values.length, req k ∉ T.others ∧ ∀ j, k < j → T.values[j]? ≠ some (req k) := by
  constructor
  · intro h k hk
    have hdone : ∀ j < k, (renameAll P req T k).values[j]? = some (req j) := fun j hj => by
      rw [renameAll_values_of_lt P req T hj, ← renameAll_values_of_lt P req T (hj.trans hk)]
      exact h j (hj.trans hk)
    apply (renameAll_values_iff P T hreq hk hdone).mp
    rw [← renameAll_values_of_lt P req T hk]
    exact h k hk
  · intro h
    have hall : ∀ n ≤ T.values.length, ∀ k < n, (renameAll P req T n).values[k]? = some (req k) := by
      intro n hn
      induction n with
      | zero => simp
      | succ n ih =>
        have hdone := ih (by omega)
        intro k hk
        rcases Nat.lt_succ_iff_lt_or_eq.mp hk with hlt | rfl
        · rw [renameAll, setName_values_ne P _ n _ hlt.ne]
          exact hdone k hlt
        · exact (renameAll_values_iff P T hreq hn hdone).mpr (h k hn)
    exact hall _ le_rfl

end RenameAll

end Names
