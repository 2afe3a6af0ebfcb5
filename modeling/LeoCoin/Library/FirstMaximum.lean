import Mathlib.Data.List.MinMax

/-!
# First Maximum

A running choice that only a strictly greater value replaces.

A loop that keeps the best candidate so far, and lets a new one replace it only
if it is strictly better, ends with the first maximum of everything it has
seen. That is Mathlib's `List.argmax`. The maximal value does not depend on the
order of the candidates, and neither does the candidate if only one attains
that value.

## Main definitions

* `keepMax`: One step of the running choice.

## Theorems

* `foldl_keepMax`: The running choice ends with the first maximum.
* `argmax_perm_value`: The maximal value is the same in every order.
* `argmax_perm_eq`: So is the maximum, if it is unique.
-/

variable {α β : Type} [LinearOrder β]

/-- Keep the candidate unless the new one is strictly greater. -/
def keepMax (f : α → β) (best new : α) : α := if f best < f new then new else best

/-- The running choice over a list is the first maximum of the list with the
    initial candidate in front. -/
theorem foldl_keepMax (f : α → β) (start : α) (xs : List α) :
    (start :: xs).argmax f = some (xs.foldl (keepMax f) start) := by
  induction xs using List.reverseRecOn with
  | nil => exact List.argmax_singleton
  | append_singleton xs x ih =>
      -- Both sides compare the best so far with the last candidate.
      rw [← List.cons_append, List.argmax_concat, ih, List.foldl_append]
      simp only [List.foldl_cons, List.foldl_nil, keepMax]
      by_cases h : f (xs.foldl (keepMax f) start) < f x
      · rw [if_pos h, if_pos h]
      · rw [if_neg h, if_neg h]

theorem argmax_perm_value (f : α → β) {xs ys : List α} (h : xs.Perm ys) {m n : α}
    (hm : xs.argmax f = some m) (hn : ys.argmax f = some n) : f n = f m := by
  have hmem : m ∈ ys := h.mem_iff.mp (List.argmax_mem hm)
  have hnem : n ∈ xs := h.mem_iff.mpr (List.argmax_mem hn)
  exact le_antisymm (List.le_of_mem_argmax hnem hm) (List.le_of_mem_argmax hmem hn)

theorem argmax_perm_eq (f : α → β) {xs ys : List α} (h : xs.Perm ys) {m n : α}
    (hm : xs.argmax f = some m) (hn : ys.argmax f = some n)
    (hunique : ∀ x ∈ xs, ∀ y ∈ xs, f x = f m → f y = f m → x = y) : n = m :=
  hunique n (h.mem_iff.mpr (List.argmax_mem hn)) m (List.argmax_mem hm)
    (argmax_perm_value f h hm hn) rfl
