import Mathlib

/-!
# Machines that answer inputs

A machine takes one input at a time and answers it. `run` feeds it a list. What one input preserves
holds after every list (`run_invariant`), and two machines whose steps keep a relation and answer
alike answer every list alike (`run_simulates`). A machine that chooses its steps has reachable states
instead of a run (`Reachable.invariant`), and histories, in which steps of a kind can be counted.
-/

namespace Machine

variable {σ τ ι ο : Type*}

/-- Feed a list of inputs to a machine; the final state and the answers in order. -/
def run (step : σ → ι → σ × ο) : σ → List ι → σ × List ο
  | s, [] => (s, [])
  | s, i :: is => ((run step (step s i).1 is).1, (step s i).2 :: (run step (step s i).1 is).2)

variable {step : σ → ι → σ × ο} {step' : τ → ι → τ × ο}

@[simp] theorem run_nil (s : σ) : run step s [] = (s, []) := rfl

theorem run_cons (s : σ) (i : ι) (is : List ι) :
    (run step s (i :: is)).1 = (run step (step s i).1 is).1 := rfl

theorem run_append (s : σ) (is js : List ι) :
    (run step s (is ++ js)).1 = (run step (run step s is).1 js).1 := by
  induction is generalizing s with
  | nil => rfl
  | cons i is ih => rw [List.cons_append, run_cons, run_cons, ih]

theorem run_concat (s : σ) (is : List ι) (i : ι) :
    (run step s (is ++ [i])).1 = (step (run step s is).1 i).1 := run_append s is [i]

/-- What every input preserves holds after every list of inputs. -/
theorem run_invariant (I : σ → Prop) (hstep : ∀ s i, I s → I (step s i).1) {s : σ} (hs : I s)
    (is : List ι) : I (run step s is).1 := by
  induction is generalizing s with
  | nil => exact hs
  | cons i is ih => exact ih (hstep s i hs)

/-- A property that one kind of input establishes and every input preserves holds after every list
with an input of that kind. -/
theorem run_established (P : σ → Prop) (kind : ι → Prop) (hset : ∀ s i, kind i → P (step s i).1)
    (hkeep : ∀ s i, P s → P (step s i).1) (s : σ) {is : List ι} (h : ∃ i ∈ is, kind i) :
    P (run step s is).1 := by
  obtain ⟨i, hi, hk⟩ := h
  obtain ⟨l, r, rfl⟩ := List.append_of_mem hi
  rw [run_append]
  exact run_invariant P hkeep (hset _ i hk) r

/-- **Simulation.** -/
theorem run_simulates (R : σ → τ → Prop)
    (hstep : ∀ s t i, R s t → R (step s i).1 (step' t i).1 ∧ (step s i).2 = (step' t i).2)
    {s : σ} {t : τ} (h : R s t) (is : List ι) :
    R (run step s is).1 (run step' t is).1 ∧ (run step s is).2 = (run step' t is).2 := by
  induction is generalizing s t with
  | nil => exact ⟨h, rfl⟩
  | cons i is ih =>
    obtain ⟨hr, ho⟩ := hstep s t i h
    obtain ⟨hr', ho'⟩ := ih hr
    exact ⟨hr', congrArg₂ List.cons ho ho'⟩

/-! ## Machines that choose -/

/-- The states that steps lead to from the initial ones. -/
inductive Reachable (init : σ → Prop) (next : σ → ι → σ → Prop) : σ → Prop
  | start {s : σ} (hs : init s) : Reachable init next s
  | step {s s' : σ} {i : ι} (hs : Reachable init next s) (h : next s i s') : Reachable init next s'

theorem Reachable.invariant {init : σ → Prop} {next : σ → ι → σ → Prop} (I : σ → Prop)
    (hinit : ∀ s, init s → I s) (hnext : ∀ s i s', I s → next s i s' → I s') {s : σ}
    (hs : Reachable init next s) : I s := by
  induction hs with
  | start hs => exact hinit _ hs
  | step _ h ih => exact hnext _ _ _ ih h

/-! ## Histories -/

/-- A run with its steps: the states it went through and what was chosen there. -/
inductive History (next : σ → ι → σ → Prop) (s₀ : σ) : List (σ × ι) → σ → Prop
  | start : History next s₀ [] s₀
  | step {tr : List (σ × ι)} {s s' : σ} {i : ι} (hs : History next s₀ tr s) (h : next s i s') :
      History next s₀ (tr ++ [(s, i)]) s'

/-- How many steps of a history are of a kind. -/
def count (kind : σ → ι → Bool) (tr : List (σ × ι)) : ℕ := tr.countP fun p => kind p.1 p.2

@[simp] theorem count_nil (kind : σ → ι → Bool) : count kind [] = 0 := rfl

theorem count_concat (kind : σ → ι → Bool) (tr : List (σ × ι)) (s : σ) (i : ι) :
    count kind (tr ++ [(s, i)]) = count kind tr + (kind s i).toNat := by
  unfold count
  rw [List.countP_append, List.countP_singleton]
  cases kind s i
  · rfl
  · rfl

theorem History.invariant {next : σ → ι → σ → Prop} {s₀ : σ} (I : List (σ × ι) → σ → Prop)
    (hstart : I [] s₀)
    (hstep : ∀ tr s i s', I tr s → next s i s' → I (tr ++ [(s, i)]) s') {tr : List (σ × ι)} {s : σ}
    (h : History next s₀ tr s) : I tr s := by
  induction h with
  | start => exact hstart
  | step _ h ih => exact hstep _ _ _ _ ih h

end Machine
