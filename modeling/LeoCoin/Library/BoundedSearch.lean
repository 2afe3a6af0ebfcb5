import Mathlib.Data.Bool.Basic
import Mathlib.Order.Basic

/-!
# Bounded Search

A search through consecutive numbers that can be interrupted.

Before each number the search asks whether it is to stop, and if not, whether
the number passes. It ends at the first number where one of the two answers is
yes, or after the last number. So how it ends depends on the answers up to
there and on nothing else.

## Main definitions

* `SearchEnd`: How a search ends.
* `search`: The search.
* `Clear`: Neither answer is yes.

## Theorems

* `search_clear`: Clear numbers are passed over.
* `search_found`, `search_interrupted`, `search_exhausted`: The end of a search
  follows from the answers.
* `search_cases`: There is no other end.
* `search_congr`: Answers that agree up to the end give the same end.
-/

namespace BoundedSearch

variable {ε : Type}

/-- A search is interrupted at a number, or finds one, or finds none. -/
inductive SearchEnd (ε : Type) where
  | interrupted (p : Nat) (code : ε)
  | found (p : Nat)
  | exhausted

/-- Search as many numbers as remain, from `p` on. -/
def search (stop : Nat → Option ε) (passes : Nat → Bool) :
    (remaining : Nat) → (p : Nat) → SearchEnd ε
  | 0, _ => .exhausted
  | remaining + 1, p =>
    match stop p with
    | some code => .interrupted p code
    | none => if passes p then .found p else search stop passes remaining (p + 1)

/-- The search goes on behind a number. -/
def Clear (stop : Nat → Option ε) (passes : Nat → Bool) (p : Nat) : Prop :=
  stop p = none ∧ passes p = false

variable {stop : Nat → Option ε} {passes : Nat → Bool}

/-- Clear numbers are passed over. -/
theorem search_clear (k remaining p : Nat) (h : ∀ q, p ≤ q → q < p + k → Clear stop passes q) :
    search stop passes (k + remaining) p = search stop passes remaining (p + k) := by
  induction k generalizing p with
  | zero => rw [Nat.zero_add, Nat.add_zero]
  | succ k ih =>
      rcases h p (Nat.le_refl p) (by omega) with ⟨hstop, hpasses⟩
      rw [show k + 1 + remaining = k + remaining + 1 by omega, search, hstop]
      simp only [hpasses, Bool.false_eq_true, if_false]
      rw [ih (p + 1) (fun q hle hlt => h q (by omega) (by omega))]
      congr 1
      omega

section Ends

variable {n p : Nat}

theorem search_found (hp : p < n) (hclear : ∀ q < p, Clear stop passes q) (hstop : stop p = none)
    (hpasses : passes p = true) : search stop passes n 0 = .found p := by
  have hn : n = p + (n - p - 1 + 1) := by omega
  rw [hn, search_clear p _ 0 (fun q _ hlt => hclear q (by omega)), Nat.zero_add, search, hstop]
  simp only [hpasses, if_true]

theorem search_interrupted (hp : p < n) (hclear : ∀ q < p, Clear stop passes q) (code : ε)
    (hstop : stop p = some code) : search stop passes n 0 = .interrupted p code := by
  have hn : n = p + (n - p - 1 + 1) := by omega
  rw [hn, search_clear p _ 0 (fun q _ hlt => hclear q (by omega)), Nat.zero_add, search, hstop]

theorem search_exhausted (hclear : ∀ q < n, Clear stop passes q) :
    search stop passes n 0 = .exhausted := by
  have hn : n = n + 0 := rfl
  rw [hn, search_clear n 0 0 (fun q _ hlt => hclear q (by omega)), search]

/-- A search ends at the first number that is not clear, if there is one. -/
theorem search_cases (stop : Nat → Option ε) (passes : Nat → Bool) (n : Nat) :
    (∃ p, p < n ∧ (∀ q < p, Clear stop passes q) ∧
      ((stop p = none ∧ passes p = true) ∨ ∃ code, stop p = some code)) ∨
    ∀ q < n, Clear stop passes q := by
  induction n with
  | zero => exact Or.inr (fun q hq => absurd hq (Nat.not_lt_zero q))
  | succ n ih =>
      rcases ih with ⟨p, hp, hfirst⟩ | hclear
      · exact Or.inl ⟨p, Nat.lt_succ_of_lt hp, hfirst⟩
      -- Everything before the last number is clear, so that number decides.
      rcases hstop : stop n with _ | code
      · by_cases hpasses : passes n = true
        · exact Or.inl ⟨n, Nat.lt_succ_self n, hclear, Or.inl ⟨hstop, hpasses⟩⟩
        · refine Or.inr ?_
          intro q hq
          rcases Nat.lt_succ_iff_lt_or_eq.mp hq with hlt | rfl
          · exact hclear q hlt
          · exact ⟨hstop, Bool.eq_false_of_not_eq_true hpasses⟩
      · exact Or.inl ⟨n, Nat.lt_succ_self n, hclear, Or.inr ⟨code, hstop⟩⟩

theorem search_found_iff : search stop passes n 0 = .found p ↔
    p < n ∧ (∀ q < p, Clear stop passes q) ∧ stop p = none ∧ passes p = true := by
  constructor
  · intro h
    rcases search_cases stop passes n with ⟨r, hr, hclear, ⟨hstop, hpasses⟩ | ⟨code, hstop⟩⟩ | hall
    · rw [search_found hr hclear hstop hpasses, SearchEnd.found.injEq] at h
      exact h ▸ ⟨hr, hclear, hstop, hpasses⟩
    · rw [search_interrupted hr hclear code hstop] at h
      exact absurd h (by simp only [reduceCtorEq, not_false_eq_true])
    · rw [search_exhausted hall] at h
      exact absurd h (by simp only [reduceCtorEq, not_false_eq_true])
  · rintro ⟨hp, hclear, hstop, hpasses⟩
    exact search_found hp hclear hstop hpasses

theorem search_interrupted_iff (code : ε) : search stop passes n 0 = .interrupted p code ↔
    p < n ∧ (∀ q < p, Clear stop passes q) ∧ stop p = some code := by
  constructor
  · intro h
    rcases search_cases stop passes n with ⟨r, hr, hclear, ⟨hstop, hpasses⟩ | ⟨code', hstop⟩⟩ | hall
    · rw [search_found hr hclear hstop hpasses] at h
      exact absurd h (by simp only [reduceCtorEq, not_false_eq_true])
    · rw [search_interrupted hr hclear code' hstop, SearchEnd.interrupted.injEq] at h
      exact h.1 ▸ ⟨hr, hclear, h.2 ▸ hstop⟩
    · rw [search_exhausted hall] at h
      exact absurd h (by simp only [reduceCtorEq, not_false_eq_true])
  · rintro ⟨hp, hclear, hstop⟩
    exact search_interrupted hp hclear code hstop

theorem search_exhausted_iff : search stop passes n 0 = .exhausted ↔
    ∀ q < n, Clear stop passes q := by
  constructor
  · intro h
    rcases search_cases stop passes n with ⟨r, hr, hclear, ⟨hstop, hpasses⟩ | ⟨code, hstop⟩⟩ | hall
    · rw [search_found hr hclear hstop hpasses] at h
      exact absurd h (by simp only [reduceCtorEq, not_false_eq_true])
    · rw [search_interrupted hr hclear code hstop] at h
      exact absurd h (by simp only [reduceCtorEq, not_false_eq_true])
    · exact hall
  · exact search_exhausted

/-- Two requests to stop that agree wherever the search gets give the same
    end. -/
theorem search_congr {stop' : Nat → Option ε}
    (h : ∀ p < n, (∀ q < p, Clear stop passes q) → stop' p = stop p) :
    search stop' passes n 0 = search stop passes n 0 := by
  have hclear : ∀ p < n, (∀ q < p, Clear stop passes q) → ∀ q < p, Clear stop' passes q := by
    intro p hp hbefore q hq
    rcases hbefore q hq with ⟨hstop, hpasses⟩
    refine ⟨?_, hpasses⟩
    rw [h q (by omega) (fun r hr => hbefore r (by omega)), hstop]
  rcases search_cases stop passes n with ⟨p, hp, hbefore, ⟨hstop, hpasses⟩ | ⟨code, hstop⟩⟩ | hall
  · rw [search_found hp hbefore hstop hpasses,
      search_found hp (hclear p hp hbefore) ((h p hp hbefore).trans hstop) hpasses]
  · rw [search_interrupted hp hbefore code hstop,
      search_interrupted hp (hclear p hp hbefore) code ((h p hp hbefore).trans hstop)]
  · rw [search_exhausted hall, search_exhausted]
    intro q hq
    rcases hall q hq with ⟨hstop, hpasses⟩
    exact ⟨(h q hq (fun r hr => hall r (by omega))).trans hstop, hpasses⟩

end Ends

end BoundedSearch
