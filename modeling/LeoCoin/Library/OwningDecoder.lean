import LeoCoin.Library.Decoder
import LeoCoin.Library.Ledger

/-!
# Owning Decoders

A decoder that builds its result from objects on the heap.

Such a decoder has two things to get right at once: what it reads, and what it
releases when it gives up. The first is what a `Decoder` is about, so an owning
decoder is compared with one. Its result is that of the decoder with the names
of the objects left out, and the objects of the result are what it allocated. If
it ends in an error it has released all it allocated, and what its caller gave
it to release.

Every stage that can fail says what is released if it does. In a C program this
is the list of calls in front of a jump to the end.

## Main definitions

* `Owning`: A computation on a cursor and a ledger.
* `Owning.reading`, `Owning.mallocs`: The stages.
* `Owning.loop`: A counted loop.
* `Accounts`: An owning decoder against a decoder.

## Theorems

* `accounts_reading`, `accounts_mallocs`: The stages.
* `accounts_bind`, `accounts_pure`, `accounts_loop`: Sequences and loops.
* `Accounts.of_agrees`: Another decoder with the same results.
* `Accounts.leaksNothing`: What is left on the heap.
-/

open Decoder

/-- A computation on the cursor and the ledger. -/
def Owning (ε α : Type) : Type := Cursor → Ledger → Except ε α × Cursor × Ledger

namespace Owning

variable {ε α β γ δ : Type}

/-- Run one stage and, if it yields a value, continue with it. -/
def bind (m : Owning ε α) (f : α → Owning ε β) : Owning ε β := fun s l =>
  match m s l with
  | (.ok a, s', l') => f a s' l'
  | (.error e, s', l') => (.error e, s', l')

instance : Monad (Owning ε) where
  pure a := fun s l => (.ok a, s, l)
  bind := Owning.bind

/-- Read, and release if that fails. -/
def reading (m : Decoder ε α) (cleanup : Ledger → Ledger) : Owning ε α := fun s l =>
  match m s with
  | (.ok a, s') => (.ok a, s', l)
  | (.error e, s') => (.error e, s', cleanup l)

/-- Allocate an object, and release if that fails. -/
def mallocs (alloc : Allocator) (n : Nat) (e : ε) (cleanup : Ledger → Ledger) : Owning ε Nat :=
  fun s l =>
    if alloc.grants s.calls n then (.ok l.malloc.1, s.request 1, l.malloc.2)
    else (.error e, s.request 1, cleanup l)

/-- Run the body `n` times, threading an accumulator. -/
def loop (body : β → Owning ε β) : Nat → β → Owning ε β
  | 0, acc => pure acc
  | n + 1, acc => do
      let acc' ← body acc
      loop body n acc'

/-- From a state in which `before` is live, an owning decoder has the result of
    a decoder, up to a function that leaves out the names. Then `after` is live,
    or `rest` if the result is an error. -/
def Accounts (m : Owning ε α) (p : Decoder ε β) (forget : α → β) (before : Multiset Nat)
    (after : α → Multiset Nat) (rest : Multiset Nat) : Prop :=
  ∀ s l, l.Holds before →
    match m s l with
    | (.ok a, s', l') => p s = (.ok (forget a), s') ∧ l'.Holds (after a)
    | (.error e, _, l') => (p s).1 = .error e ∧ l'.Holds rest

instance : LawfulMonad (Decoder ε) := LawfulMonad.mk' _
  (fun m => funext fun s => by
    change Decoder.bind m pure s = m s
    unfold Decoder.bind
    rcases m s with ⟨_ | _, _⟩
    · rfl
    · rfl)
  (fun _ _ => rfl)
  (fun m f g => funext fun s => by
    change Decoder.bind (Decoder.bind m f) g s = Decoder.bind m (fun a => Decoder.bind (f a) g) s
    unfold Decoder.bind
    rcases m s with ⟨_ | _, _⟩
    · rfl
    · rfl)

/-- A decoder that fails does not come to what follows. -/
theorem fail_bind (e : ε) (f : α → Decoder ε β) : (fail e : Decoder ε α) >>= f = fail e := rfl

/-- Two decoders with the same results, and with the same cursor after a
    value. -/
def Agrees (p q : Decoder ε α) : Prop :=
  ∀ s, (∀ a s', p s = (.ok a, s') → q s = (.ok a, s')) ∧
    ∀ e, (p s).1 = .error e → (q s).1 = .error e

section Rules

variable {before rest : Multiset Nat}

theorem accounts_pure {a : α} {b : β} {forget : α → β} {after : α → Multiset Nat}
    (hforget : forget a = b) (h : before = after a) :
    Accounts (pure a : Owning ε α) (pure b) forget before after rest := by
  subst hforget h
  exact fun s l hl => ⟨rfl, hl⟩

theorem accounts_reading (m : Decoder ε α) {cleanup : Ledger → Ledger} {names : Multiset Nat}
    (hcleanup : Releases cleanup names) (hbefore : before = names + rest) :
    Accounts (reading m cleanup) m id before (fun _ => before) rest := by
  subst hbefore
  intro s l hl
  unfold reading
  rcases hm : m s with ⟨e | a, s'⟩
  · exact ⟨rfl, hcleanup l rest hl⟩
  · exact ⟨rfl, hl⟩

theorem accounts_mallocs (alloc : Allocator) (n : Nat) (e : ε) {cleanup : Ledger → Ledger}
    {names : Multiset Nat} (hcleanup : Releases cleanup names) (hbefore : before = names + rest) :
    Accounts (mallocs alloc n e cleanup) (allocate alloc n e) (fun _ => ()) before
      (fun a => a ::ₘ before) rest := by
  subst hbefore
  intro s l hl
  unfold mallocs allocate allocating
  by_cases hgrants : alloc.grants s.calls n = true
  · simp only [if_pos hgrants, true_and]
    exact hl.malloc
  · simp only [if_neg hgrants, true_and]
    exact hcleanup l rest hl

theorem accounts_bind {m : Owning ε α} {p : Decoder ε β} {f : α → β} {mid : α → Multiset Nat}
    {k : α → Owning ε γ} {q : β → Decoder ε δ} {g : γ → δ} {after : γ → Multiset Nat}
    (hm : Accounts m p f before mid rest)
    (hk : ∀ a, Accounts (k a) (q (f a)) g (mid a) after rest) :
    Accounts (m >>= k) (p >>= q) g before after rest := by
  intro s l hl
  change match Owning.bind m k s l with
    | (.ok a, s', l') => Decoder.bind p q s = (.ok (g a), s') ∧ l'.Holds (after a)
    | (.error e, _, l') => (Decoder.bind p q s).1 = .error e ∧ l'.Holds rest
  have hfirst := hm s l hl
  unfold Owning.bind Decoder.bind
  rcases hrun : m s l with ⟨e | a, s', l'⟩
  · rw [hrun] at hfirst
    rcases hp : p s with ⟨e' | b, s''⟩
    · rw [hp] at hfirst
      rcases hfirst with ⟨herr, hlive⟩
      rw [Except.error.injEq] at herr
      rw [herr]
      exact ⟨rfl, hlive⟩
    · rw [hp] at hfirst
      exact absurd hfirst.1 (by simp only [reduceCtorEq, not_false_eq_true])
  · rw [hrun] at hfirst
    simp only [hfirst.1]
    exact hk a s' l' hfirst.2

/-- A loop accounts for what it allocates if each of its rounds does. -/
theorem accounts_loop {body : β → Owning ε β} {plain : γ → Decoder ε γ} {forget : β → γ}
    {names : β → Multiset Nat}
    (h : ∀ acc, Accounts (body acc) (plain (forget acc)) forget (names acc) names rest) (n : Nat)
    (acc : β) : Accounts (loop body n acc) (Decoder.loop plain n (forget acc)) forget (names acc)
      names rest := by
  induction n generalizing acc with
  | zero => exact accounts_pure rfl rfl
  | succ n ih => exact accounts_bind (h acc) ih

theorem Agrees.refl (p : Decoder ε α) : Agrees p p := fun _ => ⟨fun _ _ h => h, fun _ h => h⟩

/-- Agreement in the first stage and in what follows. -/
theorem Agrees.bind {p p' : Decoder ε α} {q q' : α → Decoder ε β} (hp : Agrees p p')
    (hq : ∀ a, Agrees (q a) (q' a)) : Agrees (p >>= q) (p' >>= q') := by
  intro s
  change (∀ a s', Decoder.bind p q s = (.ok a, s') → Decoder.bind p' q' s = (.ok a, s')) ∧
    ∀ e, (Decoder.bind p q s).1 = .error e → (Decoder.bind p' q' s).1 = .error e
  have hfirst := hp s
  unfold Decoder.bind
  rcases hrun : p s with ⟨e | a, s'⟩
  · have herr := hfirst.2 e (by rw [hrun])
    rcases hrun' : p' s with ⟨e' | a', s''⟩
    · rw [hrun', Except.error.injEq] at herr
      rw [herr]
      exact ⟨fun _ _ h => absurd h (by simp only [Prod.mk.injEq, reduceCtorEq, false_and,
        not_false_eq_true]), fun _ h => h⟩
    · rw [hrun'] at herr
      exact absurd herr (by simp only [reduceCtorEq, not_false_eq_true])
  · rw [hfirst.1 a s' hrun]
    exact hq a s'

/-- What accounts for a decoder accounts for another with the same results. -/
theorem Accounts.of_agrees {m : Owning ε α} {p q : Decoder ε β} {forget : α → β}
    {after : α → Multiset Nat} (h : Accounts m p forget before after rest) (hpq : Agrees p q) :
    Accounts m q forget before after rest := by
  intro s l hl
  have hrun := h s l hl
  rcases hm : m s l with ⟨e | a, s', l'⟩
  · rw [hm] at hrun
    exact ⟨(hpq s).2 e hrun.1, hrun.2⟩
  · rw [hm] at hrun
    exact ⟨(hpq s).1 _ _ hrun.1, hrun.2⟩

/-- An owning decoder that accounts for its result, on a heap where only the
    objects of its caller are live. The two decoders have one outcome, a failure
    leaves the heap to the caller as it was, and so does a success once the
    result is destroyed. -/
theorem Accounts.leaksNothing {m : Owning ε α} {p : Decoder ε β} {forget : α → β}
    {own : α → Multiset Nat} (h : Accounts m p forget rest (fun a => own a + rest) rest)
    {destroy : α → Ledger → Ledger} (hdestroy : ∀ a, Releases (destroy a) (own a)) (s : Cursor)
    (l : Ledger) (hl : l.Holds rest) :
    ∃ result s' l', m s l = (result, s', l') ∧ (p s).1 = result.map forget ∧
      (∀ e, result = .error e → l'.Holds rest) ∧
      ∀ a, result = .ok a → l'.Holds (own a + rest) ∧ (destroy a l').Holds rest := by
  have hrun := h s l hl
  rcases hm : m s l with ⟨e | a, s', l'⟩
  · rw [hm] at hrun
    refine ⟨.error e, s', l', rfl, hrun.1, fun _ _ => hrun.2, ?_⟩
    intro a ha
    exact absurd ha (by simp only [reduceCtorEq, not_false_eq_true])
  · rw [hm] at hrun
    refine ⟨.ok a, s', l', rfl, by rw [hrun.1]; rfl, ?_, ?_⟩
    · intro e he
      exact absurd he (by simp only [reduceCtorEq, not_false_eq_true])
    · intro a' ha
      rw [Except.ok.injEq] at ha
      subst ha
      exact ⟨hrun.2, hdestroy a l' rest hrun.2⟩

end Rules

end Owning
