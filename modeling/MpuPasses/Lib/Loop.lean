import Mathlib

/-!
# Loops

The `while` loop with a fuel bound, the `for` loop over a list whose body may fail, and the pass that
changes the elements of a list one by one.

`Loop.run guard body n s` tests the guard at most `n` times. `running` means that the tests ran
out, so a loop that never ends is `running` at every bound; `fault` means that the body failed.
The rules are the usual ones: an invariant survives the loop (`run_invariant`), a variant bounds
it (`run_ne_running`), a counter runs up to its bound (`run_counter`), and a guard that the body can
never falsify keeps it going (`run_diverges`). Two runs that end agree (`run_done_unique`).
`Loop.forEach` fails with the first iteration that does; `visited` is what it has looked at by then.
-/

namespace Loop

variable {σ : Type*}

/-- What `n` tests of the guard lead to. -/
inductive Outcome (σ : Type*)
  | done (s : σ)
  | fault
  | running
  deriving DecidableEq, Repr

/-- The final state, if there is one. -/
def Outcome.final? : Outcome σ → Option σ
  | .done s => some s
  | _ => none

theorem Outcome.eq_done_of_final? {o : Outcome σ} {s : σ} (h : o.final? = some s) : o = .done s := by
  cases o <;> cases h
  rfl

/-- `while guard: body`, with at most `n` tests of the guard. -/
def run (guard : σ → Bool) (body : σ → Option σ) : ℕ → σ → Outcome σ
  | 0, _ => .running
  | n + 1, s =>
    if guard s then
      match body s with
      | some t => run guard body n t
      | none => .fault
    else .done s

variable {guard : σ → Bool} {body : σ → Option σ}

theorem run_of_not_guard {s : σ} (h : guard s = false) (n : ℕ) :
    run guard body (n + 1) s = .done s := by
  rw [run, h]; rfl

theorem run_of_guard {s t : σ} (h : guard s = true) (hb : body s = some t) (n : ℕ) :
    run guard body (n + 1) s = run guard body n t := by
  rw [run, if_pos h, hb]

theorem run_of_fault {s : σ} (h : guard s = true) (hb : body s = none) (n : ℕ) :
    run guard body (n + 1) s = .fault := by
  rw [run, if_pos h, hb]

/-- **Invariant rule.** -/
theorem run_invariant (I : σ → Prop) (hstep : ∀ s t, I s → guard s = true → body s = some t → I t)
    {n : ℕ} {s t : σ} (hs : I s) (h : run guard body n s = .done t) :
    I t ∧ guard t = false := by
  induction n generalizing s with
  | zero => cases h
  | succ n ih =>
    cases hg : guard s with
    | false =>
      rw [run_of_not_guard hg] at h
      cases h
      exact ⟨hs, hg⟩
    | true =>
      cases hb : body s with
      | none => rw [run_of_fault hg hb] at h; cases h
      | some u =>
        rw [run_of_guard hg hb] at h
        exact ih (hstep s u hs hg hb) h

/-- **Variant rule.** A measure that every turn lowers bounds the number of tests. -/
theorem run_ne_running (I : σ → Prop) (μ : σ → ℕ)
    (hstep : ∀ s t, I s → guard s = true → body s = some t → I t ∧ μ t < μ s)
    {n : ℕ} {s : σ} (hs : I s) (hn : μ s < n) : run guard body n s ≠ .running := by
  induction n generalizing s with
  | zero => omega
  | succ n ih =>
    cases hg : guard s with
    | false => rw [run_of_not_guard hg]; nofun
    | true =>
      cases hb : body s with
      | none => rw [run_of_fault hg hb]; nofun
      | some t =>
        obtain ⟨ht, hlt⟩ := hstep s t hs hg hb
        rw [run_of_guard hg hb]
        exact ih ht (by omega)

/-- **Total correctness.** With a body that succeeds from the invariant, keeps it and lowers a measure,
the loop ends with the invariant and without the guard. -/
theorem exists_run_eq_done (I : σ → Prop) (μ : σ → ℕ)
    (hstep : ∀ s, I s → guard s = true → ∃ t, body s = some t ∧ I t ∧ μ t < μ s)
    {n : ℕ} {s : σ} (hs : I s) (hn : μ s < n) :
    ∃ t, run guard body n s = .done t ∧ I t ∧ guard t = false := by
  induction n generalizing s with
  | zero => omega
  | succ n ih =>
    cases hg : guard s with
    | false => exact ⟨s, run_of_not_guard hg n, hs, hg⟩
    | true =>
      obtain ⟨t, hb, ht, hlt⟩ := hstep s hs hg
      rw [run_of_guard hg hb]
      exact ih ht (by omega)

/-- A body that cannot fail makes no fault. -/
theorem run_ne_fault (hbody : ∀ s, (body s).isSome) (n : ℕ) (s : σ) :
    run guard body n s ≠ .fault := by
  induction n generalizing s with
  | zero => nofun
  | succ n ih =>
    cases hg : guard s with
    | false => rw [run_of_not_guard hg]; nofun
    | true =>
      obtain ⟨t, ht⟩ := Option.isSome_iff_exists.mp (hbody s)
      rw [run_of_guard hg ht]
      exact ih t

/-- A loop whose body cannot fail and lowers a measure ends. -/
theorem run_final?_isSome (I : σ → Prop) (μ : σ → ℕ) (hbody : ∀ s, (body s).isSome)
    (hstep : ∀ s t, I s → guard s = true → body s = some t → I t ∧ μ t < μ s)
    {n : ℕ} {s : σ} (hs : I s) (hn : μ s < n) : (run guard body n s).final?.isSome := by
  have hrun := run_ne_running I μ hstep hs hn
  have hfault : run guard body n s ≠ .fault := run_ne_fault hbody n s
  cases h : run guard body n s with
  | done t => rfl
  | fault => exact absurd h hfault
  | running => exact absurd h hrun

theorem run_eq_done_get {n : ℕ} {s : σ} (h : (run guard body n s).final?.isSome) :
    run guard body n s = .done ((run guard body n s).final?.get h) := by
  generalize run guard body n s = o at h ⊢
  cases o with
  | done t => rfl
  | fault => cases h
  | running => cases h

/-- More tests do not change the result. -/
theorem run_eq_done_of_le {n m : ℕ} (hnm : n ≤ m) {s t : σ} (h : run guard body n s = .done t) :
    run guard body m s = .done t := by
  induction n generalizing m s with
  | zero => cases h
  | succ n ih =>
    obtain ⟨m, rfl⟩ : ∃ m', m = m' + 1 := ⟨m - 1, by omega⟩
    cases hg : guard s with
    | false =>
      rw [run_of_not_guard hg] at h ⊢
      exact h
    | true =>
      cases hb : body s with
      | none => rw [run_of_fault hg hb] at h; cases h
      | some u =>
        rw [run_of_guard hg hb] at h ⊢
        exact ih (Nat.le_of_succ_le_succ hnm) h

theorem run_done_unique {n m : ℕ} {s t u : σ} (ht : run guard body n s = .done t)
    (hu : run guard body m s = .done u) : t = u := by
  have ht' := run_eq_done_of_le (le_max_left n m) ht
  rw [run_eq_done_of_le (le_max_right n m) hu] at ht'
  cases ht'
  rfl

/-- **Divergence rule.** States that keep the guard true never leave the loop. -/
theorem run_diverges (I : σ → Prop)
    (hstep : ∀ s, I s → guard s = true ∧ ∃ t, body s = some t ∧ I t)
    (n : ℕ) {s : σ} (hs : I s) : run guard body n s = .running := by
  induction n generalizing s with
  | zero => rfl
  | succ n ih =>
    obtain ⟨hg, t, hb, ht⟩ := hstep s hs
    rw [run_of_guard hg hb]
    exact ih ht

theorem toNat_succ {w : ℕ} {k : BitVec w} (h : k.toNat + 1 < 2 ^ w) : (k + 1).toNat = k.toNat + 1 := by
  have hone : (1 : BitVec w).toNat = 1 := BitVec.toNat_one (Nat.pos_of_ne_zero fun hw => by subst hw; omega)
  rw [BitVec.toNat_add_of_lt (by rw [hone]; exact h), hone]

theorem run_counter_from {w : ℕ} {size : BitVec w} (f : BitVec w → σ)
    (hguard : ∀ k, guard (f k) = decide (k < size))
    (hbody : ∀ k, k < size → body (f k) = some (f (k + 1)))
    {n : ℕ} {k : BitVec w} (hk : k ≤ size) (hn : size.toNat - k.toNat < n) :
    run guard body n (f k) = .done (f size) := by
  induction n generalizing k with
  | zero => omega
  | succ n ih =>
    by_cases hlt : k < size
    · have hsucc : (k + 1).toNat = k.toNat + 1 := toNat_succ (Nat.lt_of_le_of_lt hlt size.isLt)
      have hnext : k + 1 ≤ size := by
        rw [BitVec.le_def, hsucc]
        exact hlt
      rw [run_of_guard (by rw [hguard]; exact decide_eq_true hlt) (hbody k hlt)]
      apply ih hnext
      rw [hsucc]
      rw [BitVec.le_def] at hnext
      omega
    · have hend : k = size := by
        apply BitVec.eq_of_toNat_eq
        rw [BitVec.lt_def] at hlt
        rw [BitVec.le_def] at hk
        omega
      rw [hend]
      apply run_of_not_guard
      rw [hguard]
      exact decide_eq_false (BitVec.lt_irrefl size)

/-- **Counting rule.** A loop over a machine word that counts up to a bound, whose state is a function
of the counter, ends with the state of the bound. -/
theorem run_counter {w : ℕ} {size : BitVec w} (f : BitVec w → σ)
    (hguard : ∀ k, guard (f k) = decide (k < size))
    (hbody : ∀ k, k < size → body (f k) = some (f (k + 1))) {n : ℕ} (hn : size.toNat < n) :
    run guard body n (f 0#w) = .done (f size) :=
  run_counter_from f hguard hbody (BitVec.le_def.mpr (by simp)) (by simpa using hn)

/-! ## For loops -/

section ForLoop

variable {α : Type*}

/-- `for x in xs: body`; `none` when an iteration fails. -/
def forEach (body : σ → α → Option σ) : σ → List α → Option σ
  | s, [] => some s
  | s, x :: xs => (body s x).bind fun t => forEach body t xs

/-- The elements that the body is entered for: all up to the first one where it fails. -/
def visited (body : σ → α → Option σ) : σ → List α → List α
  | _, [] => []
  | s, x :: xs =>
    match body s x with
    | some t => x :: visited body t xs
    | none => [x]

variable {body : σ → α → Option σ}

theorem forEach_cons (s : σ) (x : α) (xs : List α) :
    forEach body s (x :: xs) = (body s x).bind fun t => forEach body t xs := rfl

theorem forEach_append (s : σ) (xs ys : List α) :
    forEach body s (xs ++ ys) = (forEach body s xs).bind fun t => forEach body t ys := by
  induction xs generalizing s with
  | nil => rfl
  | cons x xs ih =>
    rw [List.cons_append, forEach_cons, forEach_cons, Option.bind_assoc]
    simp only [ih]

/-- **Invariant rule** of a loop over a list that runs through. -/
theorem forEach_invariant (I : σ → Prop) (hstep : ∀ s x t, I s → body s x = some t → I t)
    {xs : List α} {s t : σ} (hs : I s) (h : forEach body s xs = some t) : I t := by
  induction xs generalizing s with
  | nil =>
    cases h
    exact hs
  | cons x xs ih =>
    obtain ⟨u, hu, hrest⟩ := Option.bind_eq_some_iff.mp h
    exact ih (hstep s x u hs hu) hrest

theorem forEach_map {β : Type*} (g : β → α) (s : σ) (xs : List β) :
    forEach body s (xs.map g) = forEach (fun s x => body s (g x)) s xs := by
  induction xs generalizing s with
  | nil => rfl
  | cons x xs ih => rw [List.map_cons, forEach_cons, forEach_cons]; simp only [ih]

variable (body) in
theorem length_visited_le (s : σ) (xs : List α) : (visited body s xs).length ≤ xs.length := by
  induction xs generalizing s with
  | nil => exact le_rfl
  | cons x xs ih =>
    unfold visited
    split
    · next t _ => simpa using ih t
    · simp

/-- The body is entered for every element exactly when it fails for none before the last. -/
theorem visited_eq_self_iff (s : σ) (xs : List α) :
    visited body s xs = xs ↔ (forEach body s xs.dropLast).isSome := by
  induction xs generalizing s with
  | nil => simp [visited, forEach]
  | cons x xs ih =>
    cases xs with
    | nil =>
      have hone : visited body s [x] = [x] := by
        unfold visited
        split <;> rfl
      simp [hone, forEach]
    | cons y ys =>
      rw [List.dropLast_cons_cons, forEach_cons, visited]
      cases h : body s x with
      | some t => simpa using ih t
      | none => simp

/-- A loop that succeeds has entered the body for every element, and the body has not failed. -/
theorem visited_of_forEach_isSome {s : σ} {xs : List α} (h : (forEach body s xs).isSome) :
    visited body s xs = xs ∧ ∀ x ∈ xs, ∃ t, (body t x).isSome := by
  induction xs generalizing s with
  | nil => exact ⟨rfl, by simp⟩
  | cons x xs ih =>
    rw [forEach_cons] at h
    cases hx : body s x with
    | none =>
      rw [hx] at h
      cases h
    | some t =>
      rw [hx, Option.bind_some] at h
      obtain ⟨hvisited, hbody⟩ := ih h
      refine ⟨?_, List.forall_mem_cons.mpr ⟨⟨s, by rw [hx]; rfl⟩, hbody⟩⟩
      unfold visited
      rw [hx]
      exact congrArg (x :: ·) hvisited

/-- A loop succeeds exactly when every element is one that the body accepts. The invariant speaks of
the elements still to come. -/
theorem forEach_isSome_iff (I : List α → σ → Prop) (ok : α → Prop)
    (hstep : ∀ x xs s, I (x :: xs) s →
      ((body s x).isSome ↔ ok x) ∧ ∀ t, body s x = some t → I xs t)
    {xs : List α} {s : σ} (hs : I xs s) :
    (forEach body s xs).isSome ↔ ∀ x ∈ xs, ok x := by
  induction xs generalizing s with
  | nil => simp [forEach]
  | cons x xs ih =>
    obtain ⟨hiff, hkeep⟩ := hstep x xs s hs
    rw [forEach_cons, List.forall_mem_cons, ← hiff]
    cases h : body s x with
    | some t => simpa using ih (hkeep t h)
    | none => simp

/-- **Invariant rule** of a loop over a list, with an invariant that speaks of the elements still to
come. -/
theorem exists_forEach_eq_some (I : List α → σ → Prop)
    (hstep : ∀ x xs s, I (x :: xs) s → ∃ t, body s x = some t ∧ I xs t)
    {xs : List α} {s : σ} (hs : I xs s) : ∃ t, forEach body s xs = some t ∧ I [] t := by
  induction xs generalizing s with
  | nil => exact ⟨s, rfl, hs⟩
  | cons x xs ih =>
    obtain ⟨t, ht, hI⟩ := hstep x xs s hs
    obtain ⟨u, hu, hIu⟩ := ih hI
    refine ⟨u, ?_, hIu⟩
    rw [forEach_cons, ht]
    exact hu

/-- **Invariant rule** of a loop over consecutive numbers: it runs through if every turn succeeds
from the invariant of its number. -/
theorem forEach_range' {body : σ → ℕ → Option σ} (I : ℕ → σ → Prop) {a n : ℕ}
    (hstep : ∀ i s, a ≤ i → i < a + n → I i s → ∃ t, body s i = some t ∧ I (i + 1) t)
    {s : σ} (hs : I a s) :
    ∃ t, forEach body s (List.range' a n) = some t ∧ I (a + n) t := by
  induction n generalizing a s with
  | zero => exact ⟨s, rfl, hs⟩
  | succ n ih =>
    obtain ⟨t, ht, hI⟩ := hstep a s le_rfl (by omega) hs
    obtain ⟨u, hu, hIu⟩ := ih (fun i s hi hlt => hstep i s (by omega) (by omega)) hI
    refine ⟨u, ?_, ?_⟩
    · rw [List.range'_succ, forEach_cons, ht]
      exact hu
    · rw [show a + (n + 1) = a + 1 + n by omega]
      exact hIu

end ForLoop

/-! ## Passes over a list -/

section Pass

variable {α β : Type*}

theorem mapM_eq_some_map {f : α → Option β} {g : α → β} {l : List α}
    (h : ∀ x ∈ l, f x = some (g x)) : l.mapM f = some (l.map g) := by
  induction l with
  | nil => rfl
  | cons x l ih =>
    obtain ⟨hx, hl⟩ := List.forall_mem_cons.mp h
    rw [List.mapM_cons, hx, ih hl]
    rfl

/-- A pass over the places of a list that succeeds everywhere maps the list. -/
theorem mapM_range_eq_some_map {f : ℕ → Option β} {g : α → β} {l : List α}
    (h : ∀ i x, l[i]? = some x → f i = some (g x)) :
    (List.range l.length).mapM f = some (l.map g) := by
  induction l using List.reverseRecOn with
  | nil => rfl
  | append_singleton l x ih =>
    have hfront : ∀ i y, l[i]? = some y → f i = some (g y) := fun i y hi => by
      apply h i y
      rw [List.getElem?_append_left (List.getElem?_eq_some_iff.mp hi).1, hi]
    have hlast : f l.length = some (g x) := h l.length x (by simp)
    rw [List.length_append, List.length_singleton, List.range_succ, List.mapM_append, ih hfront,
      List.mapM_cons, hlast, List.map_append]
    rfl

/-- A pass depends on what its body does with the elements of the list. -/
theorem mapM_congr_of_mem {f g : α → Option β} {l : List α} (h : ∀ x ∈ l, f x = g x) :
    l.mapM f = l.mapM g := by
  induction l with
  | nil => rfl
  | cons x l ih =>
    obtain ⟨hx, hl⟩ := List.forall_mem_cons.mp h
    rw [List.mapM_cons, List.mapM_cons, hx, ih hl]

/-- Two passes, one after the other, are one pass. -/
theorem mapM_bind_mapM {γ : Type*} (f : α → Option β) (g : β → Option γ) (l : List α) :
    (l.mapM f).bind (fun ys => ys.mapM g) = l.mapM fun x => (f x).bind g := by
  induction l with
  | nil => rfl
  | cons x l ih =>
    rw [List.mapM_cons, List.mapM_cons, ← ih]
    cases f x with
    | none => rfl
    | some y =>
      cases l.mapM f with
      | none =>
        -- the first pass fails later, the second one may fail before that
        cases hg : g y with
        | none => simp [hg]
        | some z => simp [hg]
      | some ys => simp [List.mapM_cons]

/-- A pass over a list that succeeds maps it. -/
theorem eq_map_of_mapM_eq_some {f : α → Option β} {g : α → β}
    (hg : ∀ x y, f x = some y → y = g x) {l : List α} {l' : List β} (h : l.mapM f = some l') :
    l' = l.map g ∧ ∀ x ∈ l, f x = some (g x) := by
  induction l generalizing l' with
  | nil => cases h; exact ⟨rfl, by simp⟩
  | cons x l ih =>
    rw [List.mapM_cons] at h
    obtain ⟨y, hx, h⟩ := Option.bind_eq_some_iff.mp h
    obtain ⟨ys, hl, h⟩ := Option.bind_eq_some_iff.mp h
    obtain ⟨rfl, hall⟩ := ih hl
    cases h
    obtain rfl := hg x y hx
    exact ⟨rfl, List.forall_mem_cons.mpr ⟨hx, hall⟩⟩

theorem forall_isSome_of_mapM {f : α → Option β} {l : List α} (h : (l.mapM f).isSome) :
    ∀ x ∈ l, (f x).isSome := by
  induction l with
  | nil => simp
  | cons x l ih =>
    rw [List.mapM_cons] at h
    obtain ⟨ys, hys⟩ := Option.isSome_iff_exists.mp h
    obtain ⟨y, hy, hys⟩ := Option.bind_eq_some_iff.mp hys
    obtain ⟨zs, hzs, -⟩ := Option.bind_eq_some_iff.mp hys
    exact List.forall_mem_cons.mpr ⟨Option.isSome_of_eq_some hy, ih (Option.isSome_of_eq_some hzs)⟩

/-- A pass over a list that succeeds everywhere relates every element to its result. -/
theorem exists_mapM_eq_some {f : α → Option β} {R : α → β → Prop} {l : List α}
    (h : ∀ x ∈ l, ∃ y, f x = some y ∧ R x y) :
    ∃ ys, l.mapM f = some ys ∧ List.Forall₂ R l ys := by
  induction l with
  | nil => exact ⟨[], rfl, .nil⟩
  | cons x l ih =>
    obtain ⟨⟨y, hy, hR⟩, hl⟩ := List.forall_mem_cons.mp h
    obtain ⟨ys, hys, hall⟩ := ih hl
    refine ⟨y :: ys, ?_, .cons hR hall⟩
    rw [List.mapM_cons, hy, hys]
    rfl

/-- A pass gives the list back just if it does so with every element. -/
theorem mapM_eq_self_iff {f : α → Option α} {l : List α} :
    l.mapM f = some l ↔ ∀ x ∈ l, f x = some x := by
  constructor
  · intro h
    induction l with
    | nil => simp
    | cons x l ih =>
      rw [List.mapM_cons] at h
      obtain ⟨y, hy, h⟩ := Option.bind_eq_some_iff.mp h
      obtain ⟨ys, hys, h⟩ := Option.bind_eq_some_iff.mp h
      cases h
      exact List.forall_mem_cons.mpr ⟨hy, ih hys⟩
  · intro h
    rw [mapM_eq_some_map (g := id) h, List.map_id]

theorem exists_mapM_forall {f : α → Option β} {P : β → Prop} {l : List α}
    (h : ∀ x ∈ l, ∃ y, f x = some y ∧ P y) : ∃ ys, l.mapM f = some ys ∧ ∀ y ∈ ys, P y := by
  obtain ⟨ys, hys, hall⟩ := exists_mapM_eq_some (R := fun _ y => P y) h
  refine ⟨ys, hys, ?_⟩
  clear hys h
  induction hall with
  | nil => simp
  | cons hP _ ih => exact List.forall_mem_cons.mpr ⟨hP, ih⟩

end Pass

end Loop
