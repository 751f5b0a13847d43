import MpuPasses.Lib.Loop

/-!
# Inserting into a list while walking it

A loop moves an iterator over a linked list and inserts nodes before and after the current one. What
it inserts behind the iterator is walked too. If those nodes are ones that the loop leaves alone,
the walk ends and puts every element between its own insertions (`walk_eq`). A loop that only looks
one node ahead sees the pairs of `withNext`.
-/

namespace Cursor

variable {α : Type*}

/-- The nodes behind the iterator and those from it on. -/
structure State (α : Type*) where
  done : List α
  rest : List α
  deriving DecidableEq, Repr

/-- One turn: insert around the current node, then advance. -/
def step (edit : α → Option (List α × List α)) (s : State α) : Option (State α) :=
  match s.rest with
  | [] => some s
  | x :: rest => (edit x).map fun (before, after) => ⟨s.done ++ before ++ [x], after ++ rest⟩

/-- The loop, with at most `n` tests. -/
def run (edit : α → Option (List α × List α)) (n : ℕ) (s : State α) : Loop.Outcome (State α) :=
  Loop.run (fun s => !s.rest.isEmpty) (step edit) n s

/-- The whole walk; none if an edit fails or the tests run out. -/
def walk (edit : α → Option (List α × List α)) (n : ℕ) (l : List α) : Option (List α) :=
  (run edit n ⟨[], l⟩).final?.map State.done

/-- An element between its insertions. -/
def around (edit : α → Option (List α × List α)) (x : α) : List α :=
  match edit x with
  | some (before, after) => before ++ x :: after
  | none => [x]

/-- An element that the loop leaves alone. -/
def Inert (edit : α → Option (List α × List α)) (x : α) : Prop := edit x = some ([], [])

variable {edit : α → Option (List α × List α)}

theorem around_of_eq {x : α} {before after : List α} (h : edit x = some (before, after)) :
    around edit x = before ++ x :: after := by
  unfold around
  rw [h]

theorem run_nil (n : ℕ) (done : List α) : run edit (n + 1) ⟨done, []⟩ = .done ⟨done, []⟩ :=
  Loop.run_of_not_guard rfl n

theorem run_cons {x : α} {before after : List α} (h : edit x = some (before, after)) (n : ℕ)
    (done rest : List α) :
    run edit (n + 1) ⟨done, x :: rest⟩ = run edit n ⟨done ++ before ++ [x], after ++ rest⟩ := by
  refine Loop.run_of_guard rfl ?_ n
  simp only [step, h, Option.map_some]

/-- Nodes left alone are passed over one by one. -/
theorem run_inert {l : List α} (hl : ∀ y ∈ l, Inert edit y) (n : ℕ) (done rest : List α) :
    run edit (n + l.length) ⟨done, l ++ rest⟩ = run edit n ⟨done ++ l, rest⟩ := by
  induction l generalizing done with
  | nil => rw [List.append_nil]; rfl
  | cons y l ih =>
    rw [List.forall_mem_cons] at hl
    rw [List.length_cons, ← Nat.add_assoc, List.cons_append, run_cons hl.1, List.nil_append,
      List.append_nil, ih hl.2, List.append_assoc, List.singleton_append]

/-- From any position on, the loop puts every element between its insertions. -/
theorem run_eq {l : List α} (hok : ∀ x ∈ l, ∃ before after, edit x = some (before, after) ∧
      ∀ y ∈ after, Inert edit y) {n : ℕ} (hn : (l.flatMap (around edit)).length < n)
    (done : List α) :
    run edit n ⟨done, l⟩ = .done ⟨done ++ l.flatMap (around edit), []⟩ := by
  induction l generalizing n done with
  | nil =>
    obtain ⟨n, rfl⟩ := Nat.exists_eq_add_of_lt hn
    rw [List.flatMap_nil, List.append_nil, List.length_nil, Nat.zero_add]
    exact run_nil n done
  | cons x l ih =>
    obtain ⟨⟨before, after, hx, hafter⟩, hl⟩ := List.forall_mem_cons.mp hok
    rw [List.flatMap_cons, around_of_eq hx, List.length_append, List.length_append,
      List.length_cons] at hn
    -- one test for the element itself, one for each node inserted behind it
    obtain ⟨m, rfl⟩ : ∃ m, n = m + after.length + 1 := ⟨n - after.length - 1, by omega⟩
    rw [run_cons hx, run_inert hafter, ih hl (by omega), List.flatMap_cons, around_of_eq hx]
    simp only [List.append_assoc, List.cons_append, List.nil_append]

/-- **The walk.** -/
theorem walk_eq {l : List α} (hok : ∀ x ∈ l, ∃ before after, edit x = some (before, after) ∧
      ∀ y ∈ after, Inert edit y) {n : ℕ} (hn : (l.flatMap (around edit)).length < n) :
    walk edit n l = some (l.flatMap (around edit)) := by
  unfold walk
  rw [run_eq hok hn]
  rfl

/-- A walk that ends has edited every node. -/
theorem forall_isSome_of_run {n : ℕ} {done l : List α}
    (h : (run edit n ⟨done, l⟩).final?.isSome) : ∀ x ∈ l, (edit x).isSome := by
  induction n generalizing done l with
  | zero => cases h
  | succ n ih =>
    cases l with
    | nil => simp
    | cons x l =>
      cases hx : edit x with
      | none =>
        have hfault : run edit (n + 1) ⟨done, x :: l⟩ = .fault := by
          refine Loop.run_of_fault rfl ?_ n
          simp only [step, hx, Option.map_none]
        rw [hfault] at h
        cases h
      | some p =>
        obtain ⟨before, after⟩ := p
        rw [run_cons hx] at h
        have hrest := (List.forall_mem_append.mp (ih h)).2
        exact List.forall_mem_cons.mpr ⟨Option.isSome_of_eq_some hx, hrest⟩

theorem forall_isSome_of_walk {n : ℕ} {l : List α} (h : (walk edit n l).isSome) :
    ∀ x ∈ l, (edit x).isSome := by
  unfold walk at h
  rw [Option.isSome_map] at h
  exact forall_isSome_of_run h

/-! ## Where things stand after a walk -/

theorem append_eq_append_cons {l m pre post : List α} {x : α} (h : l ++ m = pre ++ x :: post) :
    (∃ post', l = pre ++ x :: post' ∧ post = post' ++ m) ∨
      ∃ pre', pre = l ++ pre' ∧ m = pre' ++ x :: post := by
  rcases List.append_eq_append_iff.mp h with ⟨pre', hpre, hm⟩ | ⟨rest, hl, hrest⟩
  · exact .inr ⟨pre', hpre, hm⟩
  · cases rest with
    | nil =>
      rw [List.append_nil] at hl
      exact .inr ⟨[], by rw [List.append_nil, hl], hrest.symm⟩
    | cons z rest =>
      obtain ⟨rfl, rfl⟩ := List.cons.inj hrest
      exact .inl ⟨rest, hl, rfl⟩

/-- A node of the walked list with its neighbours: it is an element of the list between its
insertions, or an insertion before or behind an element. -/
inductive Place (edit : α → Option (List α × List α)) (l : List α) (pre : List α) (x : α)
    (post : List α) : Prop
  | element {before after : List α} (mem : x ∈ l) (eq : edit x = some (before, after))
      (hbefore : before <:+ pre) (hafter : after <+: post)
  | before {y : α} {b₁ b₂ after : List α} (mem : y ∈ l) (eq : edit y = some (b₁ ++ x :: b₂, after))
      (hpost : b₂ ++ [y] <+: post)
  | after {y : α} {before a₁ a₂ : List α} (mem : y ∈ l) (eq : edit y = some (before, a₁ ++ x :: a₂))
      (hpre : y :: a₁ <:+ pre)

theorem Place.cons {l pre post : List α} {x : α} (h : Place edit l pre x post) (y : α)
    (front : List α) : Place edit (y :: l) (front ++ pre) x post := by
  cases h with
  | element mem eq hbefore hafter =>
    exact .element (List.mem_cons_of_mem y mem) eq (hbefore.trans (List.suffix_append _ _)) hafter
  | before mem eq hpost => exact .before (List.mem_cons_of_mem y mem) eq hpost
  | after mem eq hpre =>
    exact .after (List.mem_cons_of_mem y mem) eq (hpre.trans (List.suffix_append _ _))

/-- What stands where after a walk. -/
theorem place_of_flatMap {l : List α} (hok : ∀ x ∈ l, (edit x).isSome) {pre post : List α} {x : α}
    (h : l.flatMap (around edit) = pre ++ x :: post) : Place edit l pre x post := by
  induction l generalizing pre with
  | nil => simp at h
  | cons y l ih =>
    obtain ⟨hy, hl⟩ := List.forall_mem_cons.mp hok
    obtain ⟨⟨before, after⟩, hy⟩ := Option.isSome_iff_exists.mp hy
    rw [List.flatMap_cons, around_of_eq hy] at h
    rcases append_eq_append_cons h with ⟨post', hown, rfl⟩ | ⟨pre', rfl, hrest⟩
    · rcases append_eq_append_cons hown with ⟨b₂, rfl, rfl⟩ | ⟨pre', rfl, hback⟩
      · refine .before List.mem_cons_self hy ⟨after ++ l.flatMap (around edit), ?_⟩
        rw [List.append_assoc, List.append_assoc]
        rfl
      · cases pre' with
        | nil =>
          obtain ⟨rfl, rfl⟩ := List.cons.inj hback
          rw [List.append_nil]
          exact .element List.mem_cons_self hy (List.suffix_refl _) (List.prefix_append _ _)
        | cons z pre' =>
          obtain ⟨rfl, rfl⟩ := List.cons.inj hback
          exact .after List.mem_cons_self hy (List.suffix_append _ _)
    · exact (ih hl hrest).cons y _

theorem sublist_flatMap_around {l : List α} (hok : ∀ x ∈ l, (edit x).isSome) :
    List.Sublist l (l.flatMap (around edit)) := by
  induction l with
  | nil => exact List.Sublist.refl _
  | cons x l ih =>
    obtain ⟨hx, hl⟩ := List.forall_mem_cons.mp hok
    obtain ⟨⟨before, after⟩, hx⟩ := Option.isSome_iff_exists.mp hx
    rw [List.flatMap_cons, around_of_eq hx, List.append_assoc, List.cons_append]
    apply List.Sublist.trans _ (List.sublist_append_right before _)
    exact ((ih hl).trans (List.sublist_append_right after _)).cons_cons x

/-- Leaving out what was inserted gives back the list. -/
theorem filter_flatMap_around {l : List α} {p : α → Bool} (hok : ∀ x ∈ l, ∃ before after,
      edit x = some (before, after) ∧ ∀ y ∈ before ++ after, p y = false)
    (hp : ∀ x ∈ l, p x = true) : (l.flatMap (around edit)).filter p = l := by
  induction l with
  | nil => rfl
  | cons x l ih =>
    obtain ⟨⟨before, after, hx, hnot⟩, hl⟩ := List.forall_mem_cons.mp hok
    obtain ⟨hpx, hpl⟩ := List.forall_mem_cons.mp hp
    obtain ⟨hbefore, hafter⟩ := List.forall_mem_append.mp hnot
    have hnil : ∀ m : List α, (∀ y ∈ m, p y = false) → m.filter p = [] := fun m hm =>
      List.filter_eq_nil_iff.mpr fun y hy => by simp [hm y hy]
    rw [List.flatMap_cons, around_of_eq hx, List.filter_append, List.filter_append, hnil _ hbefore,
      List.filter_cons_of_pos hpx, hnil _ hafter, ih hl hpl]
    rfl

/-! ## One node ahead -/

/-- Every element with the one behind it; `c` is what follows the list. -/
def withNext (c : Option α) : List α → List (α × Option α)
  | [] => []
  | x :: l => (x, l.head?.or c) :: withNext c l

@[simp] theorem withNext_nil (c : Option α) : withNext c ([] : List α) = [] := rfl

@[simp] theorem withNext_cons (c : Option α) (x : α) (l : List α) :
    withNext c (x :: l) = (x, l.head?.or c) :: withNext c l := rfl

theorem withNext_append (c : Option α) (l m : List α) :
    withNext c (l ++ m) = withNext (m.head?.or c) l ++ withNext c m := by
  induction l with
  | nil => rfl
  | cons x l ih =>
    rw [List.cons_append, withNext_cons, withNext_cons, ih, List.head?_append, Option.or_assoc]
    rfl

theorem fst_mem_of_mem_withNext {c : Option α} {l : List α} {p : α × Option α}
    (h : p ∈ withNext c l) : p.1 ∈ l := by
  induction l with
  | nil => cases h
  | cons x l ih =>
    rcases List.mem_cons.mp h with rfl | h
    · exact List.mem_cons_self
    · exact List.mem_cons_of_mem x (ih h)

theorem snd_mem_of_mem_withNext {l : List α} {p : α × Option α} (h : p ∈ withNext none l) {x : α}
    (hx : p.2 = some x) : x ∈ l := by
  induction l with
  | nil => cases h
  | cons y l ih =>
    rcases List.mem_cons.mp h with rfl | h
    · rw [Option.or_none] at hx
      exact List.mem_cons_of_mem y (List.mem_of_mem_head? hx)
    · exact List.mem_cons_of_mem y (ih h)

theorem map_fst_withNext (c : Option α) (l : List α) : (withNext c l).map Prod.fst = l := by
  induction l with
  | nil => rfl
  | cons x l ih => rw [withNext_cons, List.map_cons, ih]

theorem exists_mem_withNext (c : Option α) {l : List α} {x : α} (h : x ∈ l) :
    ∃ n, (x, n) ∈ withNext c l := by
  induction l with
  | nil => cases h
  | cons y l ih =>
    rcases List.mem_cons.mp h with rfl | h
    · exact ⟨_, List.mem_cons_self⟩
    · obtain ⟨n, hn⟩ := ih h
      exact ⟨n, List.mem_cons_of_mem _ hn⟩

theorem withNext_map {β : Type*} (f : α → β) (l : List α) :
    withNext none (l.map f) = (withNext none l).map fun p => (f p.1, p.2.map f) := by
  induction l with
  | nil => rfl
  | cons x l ih =>
    rw [List.map_cons, withNext_cons, withNext_cons, List.map_cons, ih, List.head?_map,
      Option.or_none, Option.or_none]

/-- The pair behind a pair is about the element that the pair names. -/
theorem next_eq_of_mem_withNext {l : List α} {p : (α × Option α) × Option (α × Option α)}
    (h : p ∈ withNext none (withNext none l)) : p.1.2 = p.2.map Prod.fst := by
  induction l with
  | nil => cases h
  | cons x l ih =>
    rcases List.mem_cons.mp h with rfl | h
    · cases l <;> rfl
    · exact ih h

end Cursor
