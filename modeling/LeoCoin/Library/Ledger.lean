import Mathlib.Data.Multiset.AddSub

/-!
# Ledgers

An account of a program's heap.

Every object that is allocated gets a name that no object had before. The
ledger keeps the names of the live objects and counts the releases of anything
else. A program that never releases what is not live has no faults, and one
that has released all it allocated leaves the ledger as it found it.

What a program has to release is a multiset of names, and what it owes to
others is added to it. `Holds` says that the two together are what is live, so
a function that releases some names has one rule, whatever else is live.

## Main definitions

* `Ledger`, `Ledger.malloc`, `Ledger.free`, `Ledger.realloc`: The heap and its
  operations.
* `Ledger.start`: The empty heap.
* `Ledger.Holds`: What is live, without a fault so far.
* `Releases`: A function releases some names and nothing else.

## Theorems

* `Ledger.Holds.malloc`, `Ledger.Holds.free`, `Ledger.Holds.realloc`: The
  operations.
* `Releases.comp`, `releases_foldl`: Sequences and loops of releases.
-/

/-- The next name, the live objects, and the number of releases of anything
    else. -/
structure Ledger where
  fresh : Nat
  live : Multiset Nat
  faults : Nat

namespace Ledger

/-- Allocate an object. -/
def malloc (l : Ledger) : Nat × Ledger :=
  (l.fresh, { l with fresh := l.fresh + 1, live := l.fresh ::ₘ l.live })

/-- Release an object. -/
def free (a : Nat) (l : Ledger) : Ledger :=
  if a ∈ l.live then { l with live := l.live.erase a } else { l with faults := l.faults + 1 }

/-- Move an object, which gets another name. -/
def realloc (a : Nat) (l : Ledger) : Nat × Ledger := (l.free a).malloc

/-- The live objects are these, they are distinct, and nothing else was ever
    released. -/
structure Holds (l : Ledger) (names : Multiset Nat) : Prop where
  live : l.live = names
  nodup : l.live.Nodup
  lt_fresh : ∀ a ∈ l.live, a < l.fresh
  faults : l.faults = 0

/-- Before the first allocation. -/
def start : Ledger := ⟨0, 0, 0⟩

theorem Holds.start : start.Holds 0 :=
  ⟨rfl, Multiset.nodup_zero, fun _ h => absurd h (Multiset.notMem_zero _), rfl⟩

theorem Holds.malloc {l : Ledger} {names : Multiset Nat} (h : l.Holds names) :
    l.malloc.2.Holds (l.malloc.1 ::ₘ names) where
  live := congrArg _ h.live
  nodup := Multiset.nodup_cons.mpr
    ⟨fun hmem => Nat.lt_irrefl _ (h.lt_fresh l.fresh hmem), h.nodup⟩
  lt_fresh := by
    intro a ha
    rcases Multiset.mem_cons.mp ha with rfl | hmem
    · exact Nat.lt_succ_self _
    · exact Nat.lt_succ_of_lt (h.lt_fresh a hmem)
  faults := h.faults

theorem Holds.free {l : Ledger} {a : Nat} {names : Multiset Nat} (h : l.Holds (a ::ₘ names)) :
    (l.free a).Holds names := by
  have hmem : a ∈ l.live := by
    rw [h.live]
    exact Multiset.mem_cons_self a names
  have hfree : l.free a = { l with live := l.live.erase a } := if_pos hmem
  rw [hfree]
  exact
    { live := by
        change l.live.erase a = names
        rw [h.live, Multiset.erase_cons_head]
      nodup := h.nodup.erase a
      lt_fresh := fun b hb => h.lt_fresh b (Multiset.mem_of_mem_erase hb)
      faults := h.faults }

theorem Holds.realloc {l : Ledger} {a : Nat} {names : Multiset Nat} (h : l.Holds (a ::ₘ names)) :
    (l.realloc a).2.Holds ((l.realloc a).1 ::ₘ names) := h.free.malloc

/-- The same objects, listed in another way. -/
theorem Holds.of_eq {l : Ledger} {names names' : Multiset Nat} (h : l.Holds names)
    (heq : names = names') : l.Holds names' := heq ▸ h

end Ledger

/-- The function releases these names and leaves whatever else is live. -/
def Releases (f : Ledger → Ledger) (names : Multiset Nat) : Prop :=
  ∀ l rest, l.Holds (names + rest) → (f l).Holds rest

theorem releases_free (a : Nat) : Releases (Ledger.free a) {a} := by
  intro l rest h
  rw [Multiset.singleton_add] at h
  exact h.free

/-- Releases one after the other. -/
theorem Releases.comp {f g : Ledger → Ledger} {xs ys : Multiset Nat} (hg : Releases g ys)
    (hf : Releases f xs) : Releases (fun l => g (f l)) (xs + ys) := by
  intro l rest h
  rw [Multiset.add_assoc] at h
  exact hg _ _ (hf _ _ h)

/-- A loop releases what its rounds release. -/
theorem releases_foldl {α : Type} (f : α → Ledger → Ledger) (names : α → Multiset Nat)
    (h : ∀ x, Releases (f x) (names x)) (xs : List α) :
    Releases (fun l => xs.foldl (fun l x => f x l) l) (xs.map names).sum := by
  induction xs with
  | nil =>
      intro l rest hl
      rw [List.map_nil, List.sum_nil, Multiset.zero_add] at hl
      exact hl
  | cons x xs ih =>
      rw [List.map_cons, List.sum_cons]
      exact ih.comp (h x)
