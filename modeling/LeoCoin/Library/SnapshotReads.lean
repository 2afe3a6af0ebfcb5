import LeoCoin.Library.Run
import Mathlib.Logic.Function.Basic

/-!
# Snapshot Reads

Readers of something that is published in versions.

The versions are numbered as they are published. A reader asks for the current
one and receives some version that was published after it has asked, or it
gives up. It does not ask again before that, so the version it receives is
later than the one it had. Nothing is said about what a version is: a system
whose readers have copies of published values refines this one if the copies
are those of the versions.

## Main definitions

* `Readers`: The number of versions, and what the readers have and wait for.
* `Act`, `step`: What can happen.
* `Ordered`: What a reader has is earlier than what it waits for.
* `NotBehind`: No reader has gone back.

## Theorems

* `Ordered.step`: The order is kept.
* `notBehind_run`: A run takes no reader back.
-/

namespace SnapshotReads

variable {ι : Type}

/-- The state of the readers. -/
structure Readers (ι : Type) where
  /-- The number of versions published so far. -/
  published : Nat
  /-- The version each reader has. -/
  seen : ι → Option Nat
  /-- For each reader that waits, the number of versions when it asked. -/
  asked : ι → Option Nat

/-- Nothing is published, and no reader has or waits for anything. -/
def start : Readers ι := ⟨0, fun _ => none, fun _ => none⟩

inductive Act (ι : Type) where
  | publish
  | ask (i : ι)
  | receive (i : ι) (version : Nat)
  | giveUp (i : ι)

/-- What a reader has comes before what it waits for, and both before what is
    not published yet. -/
structure Ordered (s : Readers ι) : Prop where
  asked_le : ∀ i b, s.asked i = some b → b ≤ s.published
  seen_lt : ∀ i k, s.seen i = some k → k < s.published
  seen_lt_asked : ∀ i k b, s.seen i = some k → s.asked i = some b → k < b

/-- Every reader that had a version has that one or a later one. -/
def NotBehind (seen seen' : ι → Option Nat) : Prop :=
  ∀ i k, seen i = some k → ∃ k', seen' i = some k' ∧ k ≤ k'

theorem NotBehind.refl (seen : ι → Option Nat) : NotBehind seen seen :=
  fun _ k h => ⟨k, h, Nat.le_refl k⟩

theorem NotBehind.trans {s₁ s₂ s₃ : ι → Option Nat} (h : NotBehind s₁ s₂)
    (h' : NotBehind s₂ s₃) : NotBehind s₁ s₃ := by
  intro i k hk
  rcases h i k hk with ⟨k₂, hk₂, hle⟩
  rcases h' i k₂ hk₂ with ⟨k₃, hk₃, hle'⟩
  exact ⟨k₃, hk₃, Nat.le_trans hle hle'⟩

theorem ordered_start : Ordered (start : Readers ι) where
  asked_le := fun _ _ h => absurd h (by simp only [start, reduceCtorEq, not_false_eq_true])
  seen_lt := fun _ _ h => absurd h (by simp only [start, reduceCtorEq, not_false_eq_true])
  seen_lt_asked := fun _ _ _ h =>
    absurd h (by simp only [start, reduceCtorEq, not_false_eq_true])

section Steps

variable [DecidableEq ι]

def step (s : Readers ι) : Act ι → Option (Readers ι)
  | .publish => some { s with published := s.published + 1 }
  | .ask i =>
    match s.asked i with
    | some _ => none
    | none => some { s with asked := Function.update s.asked i (some s.published) }
  | .receive i version =>
    match s.asked i with
    | none => none
    | some b =>
      if b ≤ version ∧ version < s.published then some
        { s with
          seen := Function.update s.seen i (some version)
          asked := Function.update s.asked i none }
      else none
  | .giveUp i => some { s with asked := Function.update s.asked i none }

theorem update_eq_some {f : ι → Option Nat} {i j : ι} {v : Option Nat} {n : Nat}
    (h : Function.update f i v j = some n) : (j = i ∧ v = some n) ∨ (j ≠ i ∧ f j = some n) := by
  by_cases hj : j = i
  · subst hj
    rw [Function.update_self] at h
    exact Or.inl ⟨rfl, h⟩
  · rw [Function.update_of_ne hj] at h
    exact Or.inr ⟨hj, h⟩

/-- A reader that no longer waits is the only one for which something changes. -/
theorem update_none_eq_some {f : ι → Option Nat} {i j : ι} {n : Nat}
    (h : Function.update f i none j = some n) : j ≠ i ∧ f j = some n := by
  rcases update_eq_some h with ⟨_, hn⟩ | hother
  · exact absurd hn (by simp only [reduceCtorEq, not_false_eq_true])
  · exact hother

/-- A step keeps the order, and takes no reader back. -/
theorem Ordered.step {s s' : Readers ι} (h : Ordered s) (a : Act ι)
    (hstep : SnapshotReads.step s a = some s') : Ordered s' ∧ NotBehind s.seen s'.seen := by
  cases a with
  | publish =>
      rw [SnapshotReads.step, Option.some.injEq] at hstep
      rw [← hstep]
      exact ⟨⟨fun i b hb => Nat.le_succ_of_le (h.asked_le i b hb),
        fun i k hk => Nat.lt_succ_of_lt (h.seen_lt i k hk), h.seen_lt_asked⟩, .refl _⟩
  | ask i =>
      rcases hasked : s.asked i with _ | b
      · simp only [SnapshotReads.step, hasked, Option.some.injEq] at hstep
        rw [← hstep]
        refine ⟨⟨?_, h.seen_lt, ?_⟩, .refl _⟩
        · intro j b hb
          rcases update_eq_some hb with ⟨_, hnow⟩ | ⟨_, hold⟩
          · rw [Option.some.injEq] at hnow
            exact Nat.le_of_eq hnow.symm
          · exact h.asked_le j b hold
        · intro j k b hk hb
          rcases update_eq_some hb with ⟨_, hnow⟩ | ⟨_, hold⟩
          · rw [Option.some.injEq] at hnow
            exact hnow ▸ h.seen_lt j k hk
          · exact h.seen_lt_asked j k b hk hold
      · simp only [SnapshotReads.step, hasked, reduceCtorEq] at hstep
  | receive i version =>
      rcases hasked : s.asked i with _ | b
      · simp only [SnapshotReads.step, hasked, reduceCtorEq] at hstep
      simp only [SnapshotReads.step, hasked] at hstep
      by_cases hversion : b ≤ version ∧ version < s.published
      swap
      · rw [if_neg hversion] at hstep
        exact absurd hstep (by simp only [reduceCtorEq, not_false_eq_true])
      rw [if_pos hversion, Option.some.injEq] at hstep
      rw [← hstep]
      refine ⟨⟨?_, ?_, ?_⟩, ?_⟩
      · intro j b' hb'
        exact h.asked_le j b' (update_none_eq_some hb').2
      · intro j k hk
        rcases update_eq_some hk with ⟨_, hnow⟩ | ⟨_, hold⟩
        · rw [Option.some.injEq] at hnow
          exact hnow ▸ hversion.2
        · exact h.seen_lt j k hold
      · intro j k b' hk hb'
        rcases update_none_eq_some hb' with ⟨hj, hasked'⟩
        rcases update_eq_some hk with ⟨hj', _⟩ | ⟨_, hold⟩
        · exact absurd hj' hj
        · exact h.seen_lt_asked j k b' hold hasked'
      · intro j k hk
        by_cases hj : j = i
        · -- The version received was published after the reader has asked.
          subst hj
          exact ⟨version, Function.update_self _ _ _,
            Nat.le_of_lt (Nat.lt_of_lt_of_le (h.seen_lt_asked j k b hk hasked) hversion.1)⟩
        · exact ⟨k, (Function.update_of_ne hj _ _).trans hk, Nat.le_refl k⟩
  | giveUp i =>
      rw [SnapshotReads.step, Option.some.injEq] at hstep
      rw [← hstep]
      exact ⟨⟨fun j b hb => h.asked_le j b (update_none_eq_some hb).2, h.seen_lt,
        fun j k b hk hb => h.seen_lt_asked j k b hk (update_none_eq_some hb).2⟩, .refl _⟩

/-- A run takes no reader back. -/
theorem notBehind_run {s s' : Readers ι} (h : Ordered s) (acts : List (Act ι))
    (hrun : Run.run step s acts = some s') : NotBehind s.seen s'.seen :=
  (Run.run_invariant (fun t => Ordered t ∧ NotBehind s.seen t.seen)
    (fun _ a _ ht hstep => ⟨(ht.1.step a hstep).1, ht.2.trans (ht.1.step a hstep).2⟩)
    s acts s' ⟨h, .refl _⟩ hrun).2

end Steps

end SnapshotReads
