import Mathlib

/-!
# What can be seen of a machine

A machine that chooses its steps shows something at some of them and nothing at the others. A run is
what was seen on the way, its hidden steps left out. If every step of one machine is answered by a
run of the other that shows the same, so is every run (`Seen.simulate`), and machines that answer each
other show the same (`behaviours_eq`). A machine that follows another one step by step, except for some
hidden steps of its own, is like it (`Stutters.alike`); to be alike is transitive (`Alike.trans`).
-/

namespace Machine

variable {σ τ ι κ ο : Type*}

/-- What is seen on the way from one state to another. -/
inductive Seen (next : σ → ι → σ → Prop) (show? : σ → Option ο) : σ → List ο → σ → Prop
  | stay (s : σ) : Seen next show? s [] s
  | step {s s' s'' : σ} {i : ι} {os : List ο} (h : next s i s') (hs : Seen next show? s' os s'') :
      Seen next show? s ((show? s).toList ++ os) s''

/-- All that can be seen from a state on. -/
def behaviours (next : σ → ι → σ → Prop) (show? : σ → Option ο) (s : σ) : Set (List ο) :=
  {os | ∃ s', Seen next show? s os s'}

/-- A step that shows nothing. -/
def Hidden (next : σ → ι → σ → Prop) (show? : σ → Option ο) (s' s : σ) : Prop :=
  (∃ i, next s i s') ∧ show? s = none

variable {next : σ → ι → σ → Prop} {next' : τ → κ → τ → Prop} {show? : σ → Option ο}
  {show' : τ → Option ο}

namespace Seen

theorem single {s s' : σ} {i : ι} (h : next s i s') : Seen next show? s (show? s).toList s' := by
  have hrun : Seen next show? s ((show? s).toList ++ []) s' := .step h (.stay s')
  rwa [List.append_nil] at hrun

theorem hidden {s s' : σ} {i : ι} (h : next s i s') (hs : show? s = none) :
    Seen next show? s [] s' := by
  have hrun : Seen next show? s (show? s).toList s' := single h
  rwa [hs] at hrun

theorem trans {s s' s'' : σ} {os os' : List ο} (h : Seen next show? s os s')
    (h' : Seen next show? s' os' s'') : Seen next show? s (os ++ os') s'' := by
  induction h with
  | stay => exact h'
  | step h _ ih =>
    rw [List.append_assoc]
    exact .step h (ih h')

/-- **Simulation.** If a step is answered by a run, a run is. -/
theorem simulate (R : σ → τ → Prop)
    (hstep : ∀ s t i s', R s t → next s i s' →
      ∃ t', Seen next' show' t (show? s).toList t' ∧ R s' t')
    {s s' : σ} {os : List ο} (h : Seen next show? s os s') {t : τ} (ht : R s t) :
    ∃ t', Seen next' show' t os t' ∧ R s' t' := by
  induction h generalizing t with
  | stay => exact ⟨t, .stay t, ht⟩
  | step h _ ih =>
    obtain ⟨u, hu, hR⟩ := hstep _ _ _ _ ht h
    obtain ⟨t', ht', hR'⟩ := ih hR
    exact ⟨t', hu.trans ht', hR'⟩

end Seen

/-- Machines that answer each other's steps show the same. -/
theorem behaviours_eq (R : σ → τ → Prop)
    (hstep : ∀ s t i s', R s t → next s i s' →
      ∃ t', Seen next' show' t (show? s).toList t' ∧ R s' t')
    (hback : ∀ s t k t', R s t → next' t k t' →
      ∃ s', Seen next show? s (show' t).toList s' ∧ R s' t')
    {s : σ} {t : τ} (h : R s t) : behaviours next show? s = behaviours next' show' t := by
  apply Set.Subset.antisymm
  · rintro os ⟨s', hs⟩
    obtain ⟨t', ht, -⟩ := hs.simulate R hstep h
    exact ⟨t', ht⟩
  · rintro os ⟨t', ht⟩
    obtain ⟨s', hs, -⟩ := ht.simulate (fun t s => R s t) (fun t s k t' => hback s t k t') h
    exact ⟨s', hs⟩

/-- If a measure falls with every hidden step, there are only finitely many in a row. -/
theorem wellFounded_hidden (measure : σ → ℕ)
    (h : ∀ s s', Hidden next show? s' s → measure s' < measure s) :
    WellFounded (Hidden next show?) :=
  Subrelation.wf (fun {s' s} hs => h s s' hs) (InvImage.wf measure Nat.lt_wfRel.wf)

/-! ## Machines that are alike -/

/-- The second machine shows from `t` on what the first one shows from `s` on: wherever one gets, the
other can get to a related state, the second stops only where the first does, and it goes on unseen
forever only if the first can. -/
structure Alike (next : σ → ι → σ → Prop) (show? : σ → Option ο) (next' : τ → κ → τ → Prop)
    (show' : τ → Option ο) (R : σ → τ → Prop) (s : σ) (t : τ) : Prop where
  behaviours : behaviours next' show' t = behaviours next show? s
  reached : ∀ os t', Seen next' show' t os t' → ∃ s', Seen next show? s os s' ∧ R s' t' ∧
    ((∀ k u, ¬ next' t' k u) → ∀ i u, ¬ next s' i u)
  reaches : ∀ os s', Seen next show? s os s' → ∃ t', Seen next' show' t os t' ∧ R s' t'
  ends : Acc (Hidden next show?) s → Acc (Hidden next' show') t

/-- Related states make their steps together, but the second machine may have hidden steps of its own
first, never more than `measure` says. -/
structure Stutters (next : σ → ι → σ → Prop) (show? : σ → Option ο) (next' : τ → κ → τ → Prop)
    (show' : τ → Option ο) (R : σ → τ → Prop) (measure : τ → ℕ) : Prop where
  follow : ∀ {s t k t'}, R s t → next' t k t' →
    (∃ i s', next s i s' ∧ show? s = show' t ∧ R s' t') ∨
      show' t = none ∧ R s t' ∧ measure t' < measure t
  lead : ∀ {s t i s'}, R s t → next s i s' →
    (∃ k t', next' t k t' ∧ show? s = show' t ∧ R s' t') ∨
      ∃ k t', next' t k t' ∧ show' t = none ∧ R s t' ∧ measure t' < measure t

namespace Stutters

variable {R : σ → τ → Prop} {measure : τ → ℕ}
  (h : Stutters next show? next' show' R measure)

include h

/-- So they do if less is seen. -/
theorem forget {π : Type*} (g : ο → Option π) :
    Stutters next (fun s => (show? s).bind g) next' (fun t => (show' t).bind g) R measure where
  follow ht hk := by
    rcases h.follow ht hk with ⟨i, s', hs, hshow, hR⟩ | ⟨hnone, hR, hlt⟩
    · exact .inl ⟨i, s', hs, congrArg (Option.bind · g) hshow, hR⟩
    · exact .inr ⟨congrArg (Option.bind · g) hnone, hR, hlt⟩
  lead ht hs := by
    rcases h.lead ht hs with ⟨k, t', hk, hshow, hR⟩ | ⟨k, t', hk, hnone, hR, hlt⟩
    · exact .inl ⟨k, t', hk, congrArg (Option.bind · g) hshow, hR⟩
    · exact .inr ⟨k, t', hk, congrArg (Option.bind · g) hnone, hR, hlt⟩

/-- The first machine answers a step. -/
theorem answer {s : σ} {t t' : τ} {k : κ} (ht : R s t) (hstep : next' t k t') :
    ∃ s', Seen next show? s (show' t).toList s' ∧ R s' t' := by
  rcases h.follow ht hstep with ⟨i, s', hs, hshow, hR⟩ | ⟨hshow, hR, -⟩
  · rw [← hshow]
    exact ⟨s', .single hs, hR⟩
  · rw [hshow]
    exact ⟨s, .stay s, hR⟩

/-- The second machine answers a step, after its own. -/
theorem ask {s s' : σ} {t : τ} {i : ι} (ht : R s t) (hstep : next s i s') :
    ∃ t', Seen next' show' t (show? s).toList t' ∧ R s' t' := by
  induction hm : measure t using Nat.strong_induction_on generalizing t with
  | _ m ih =>
    rcases h.lead ht hstep with ⟨k, t', hk, hshow, hR⟩ | ⟨k, t', hk, hshow, hR, hlt⟩
    · rw [hshow]
      exact ⟨t', .single hk, hR⟩
    · obtain ⟨u, hu, hRu⟩ := ih _ (hm ▸ hlt) hR rfl
      exact ⟨u, (Seen.hidden hk hshow).trans hu, hRu⟩

/-- The second machine goes on unseen only as long as the first does. -/
theorem acc {s : σ} (hacc : Acc (Hidden next show?) s) {t : τ} (ht : R s t) :
    Acc (Hidden next' show') t := by
  induction hacc generalizing t with
  | intro s _ ih =>
    -- an own step leaves the first machine where it is
    induction hm : measure t using Nat.strong_induction_on generalizing t with
    | _ m ihm =>
      refine ⟨t, fun t' ht' => ?_⟩
      obtain ⟨⟨k, hk⟩, hnone⟩ := ht'
      rcases h.follow ht hk with ⟨i, s', hs, hshow, hR⟩ | ⟨-, hR, hlt⟩
      · exact ih s' ⟨⟨i, hs⟩, hshow.trans hnone⟩ hR
      · exact ihm _ (hm ▸ hlt) hR rfl

theorem alike {s : σ} {t : τ} (ht : R s t) : Alike next show? next' show' R s t where
  behaviours := (behaviours_eq R (fun _ _ _ _ hR hstep => h.ask hR hstep)
    (fun _ _ _ _ hR hstep => h.answer hR hstep) ht).symm
  reached os t' hs := by
    obtain ⟨s', hs', hR⟩ := hs.simulate (fun t s => R s t) (fun _ _ _ _ hR hstep => h.answer hR hstep) ht
    refine ⟨s', hs', hR, fun hstop i u hstep => ?_⟩
    rcases h.lead hR hstep with ⟨k, u', hk, -⟩ | ⟨k, u', hk, -⟩
    · exact hstop k u' hk
    · exact hstop k u' hk
  reaches os s' hs := hs.simulate R (fun _ _ _ _ hR hstep => h.ask hR hstep) ht
  ends hacc := h.acc hacc ht

end Stutters

namespace Alike

variable {υ μ : Type*} {next'' : υ → μ → υ → Prop} {show'' : υ → Option ο} {R : σ → τ → Prop}
  {R' : τ → υ → Prop} {s : σ} {t : τ} {u : υ}

theorem trans (h : Alike next show? next' show' R s t) (h' : Alike next' show' next'' show'' R' t u) :
    Alike next show? next'' show'' (fun s u => ∃ t, R s t ∧ R' t u) s u where
  behaviours := h'.behaviours.trans h.behaviours
  reached os u' hu := by
    obtain ⟨t', ht, hR', hstop'⟩ := h'.reached os u' hu
    obtain ⟨s', hs, hR, hstop⟩ := h.reached os t' ht
    exact ⟨s', hs, ⟨t', hR, hR'⟩, fun hu => hstop (hstop' hu)⟩
  reaches os s' hs := by
    obtain ⟨t', ht, hR⟩ := h.reaches os s' hs
    obtain ⟨u', hu, hR'⟩ := h'.reaches os t' ht
    exact ⟨u', hu, t', hR, hR'⟩
  ends hacc := h'.ends (h.ends hacc)

end Alike

end Machine
