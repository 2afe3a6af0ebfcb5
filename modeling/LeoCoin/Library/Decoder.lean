import LeoCoin.Library.Memory

/-!
# Cursor Decoders

A decoder that walks a buffer with a cursor and checks its bounds by hand.

The decoders a C program writes do not get their bounds from the language.
They compare the cursor with the size of the buffer, and then read; nothing
ties the number of bytes compared to the number of bytes read. So the two are
separate primitives here. `checkRead` only compares, `readBytes` only reads,
and a read past the size returns whatever memory holds there.

Every index read is logged, whether the decoder ends in a value or in an
error. The log is part of the state together with the fact that it is exactly
the indices below the cursor, so a bound on the cursor is a bound on every
read ever made.

`Allocator` requests are numbered in the order the decoder makes them.

Correctness is stated with `wp`, the weakest precondition of a run from one
state, with one postcondition for a value and one for an error. `wp_loop` is
the rule for counted loops: an invariant that each round carries from one
count to the next holds at the end, and every error an inner round raises is
an error of the loop.

## Main definitions

* `Buffer`: Memory from the first byte on, and the announced size.
* `Cursor`: The position, the log of reads and the allocation count.
* `Decoder`: A computation on the cursor that may end in an error.
* `loop`: A counted loop.
* `wp`: The weakest precondition of a run.
* `Quiet`: A decoder that requests no memory.
* `StaysInside`: A decoder that never passes the end of its buffer.

## Theorems

* `wp_bind`: Sequencing.
* `wp_mono`: Weakening both postconditions.
* `ok_of_map_ok`, `wp_of_map`: A function of the value.
* `wp_checkRead`: A bounds check passes or raises its error.
* `wp_readBytes`: A read returns a slice and advances the cursor.
* `wp_allocating`, `wp_allocate`: Allocations are granted or raise the error.
* `wp_loop`: An invariant carried by each round holds after the loop.
* `error_of_wp`: The one error of a run that returns no value.
* `wp_quiet`: A run of a quiet decoder keeps the allocation count.
* `staysInside_bind`, `staysInside_loop`: Sequences and loops stay inside.
* `StaysInside.reads_lt`: A decoder that stays inside reads nothing outside.
-/

/-- Memory from the first byte of a buffer on, and the announced size. -/
structure Buffer where
  byte : Nat → UInt8
  size : Nat

/-- The buffer holding the given bytes, with whatever lies past its end. -/
def Buffer.ofBytes (bs : List UInt8) (beyond : Nat → UInt8) : Buffer where
  byte := extend bs beyond
  size := bs.length

/-- The `n` bytes of memory at an offset from the first byte of a buffer. -/
def Buffer.bytesAt (b : Buffer) (p n : Nat) : Bytes n := ⟨slice b.byte p n, slice_length _ _ _⟩

/-- A decoder's state: the position, the indices read so far in order, and
    the number of allocations requested. -/
structure Cursor where
  pos : Nat
  reads : List Nat
  calls : Nat
  reads_eq : reads = List.range pos

namespace Cursor

/-- The cursor at the first byte, nothing read. -/
def start : Cursor where
  pos := 0
  reads := []
  calls := 0
  reads_eq := rfl

/-- The cursor after reading the next `n` bytes. -/
def advance (s : Cursor) (n : Nat) : Cursor where
  pos := s.pos + n
  reads := s.reads ++ (List.range n).map (s.pos + ·)
  calls := s.calls
  reads_eq := by rw [s.reads_eq, List.range_add]

/-- The cursor after `n` more allocation requests. -/
def request (s : Cursor) (n : Nat) : Cursor := { s with calls := s.calls + n }

@[simp] theorem advance_pos (s : Cursor) (n : Nat) : (s.advance n).pos = s.pos + n := rfl

@[simp] theorem request_pos (s : Cursor) (n : Nat) : (s.request n).pos = s.pos := rfl

/-- The reads all lie below a bound exactly when the cursor does not pass it. -/
theorem forall_reads_lt_iff (s : Cursor) (b : Nat) : (∀ i ∈ s.reads, i < b) ↔ s.pos ≤ b := by
  rw [s.reads_eq]
  constructor
  · intro h
    by_contra hc
    -- A cursor past the bound has read the bound itself.
    have hb := h b (List.mem_range.mpr (by omega))
    omega
  · intro h i hi
    have hlt := List.mem_range.mp hi
    omega

end Cursor

/-- A computation on the cursor, ending in a value or in an error. -/
def Decoder (ε α : Type) : Type := Cursor → Except ε α × Cursor

namespace Decoder

variable {ε α β : Type}

/-- Run one decoder and, if it yields a value, continue with it. -/
def bind (m : Decoder ε α) (f : α → Decoder ε β) : Decoder ε β := fun s =>
  match m s with
  | (.ok a, s') => f a s'
  | (.error e, s') => (.error e, s')

instance : Monad (Decoder ε) where
  pure a := fun s => (.ok a, s)
  bind := Decoder.bind

/-- Give up with an error. -/
def fail (e : ε) : Decoder ε α := fun s => (.error e, s)

/-- Compare the end of the next `n` bytes with the size of the buffer. -/
def checkRead (b : Buffer) (n : Nat) (e : ε) : Decoder ε Unit := fun s =>
  if s.pos + n > b.size then (.error e, s) else (.ok (), s)

/-- Read the next `n` bytes, unchecked. -/
def readBytes (b : Buffer) (n : Nat) : Decoder ε (Bytes n) := fun s =>
  (.ok (b.bytesAt s.pos n), s.advance n)

/-- Call a function that makes `n` allocation requests, given the number of
    the first. -/
def allocating (n : Nat) (f : Nat → Except ε α) : Decoder ε α := fun s =>
  (f s.calls, s.request n)

/-- Request `n` bytes of memory. -/
def allocate (a : Allocator) (n : Nat) (e : ε) : Decoder ε Unit :=
  allocating 1 fun call => if a.grants call n then .ok () else .error e

/-- Run the body `n` times, threading an accumulator. -/
def loop (body : β → Decoder ε β) : Nat → β → Decoder ε β
  | 0, acc => pure acc
  | n + 1, acc => do
      let acc' ← body acc
      loop body n acc'

/-- The weakest precondition of a run: from state `s` it ends in a value with
    `Q`, or in an error with `E`. -/
def wp (m : Decoder ε α) (s : Cursor) (Q : α → Cursor → Prop) (E : ε → Cursor → Prop) : Prop :=
  match m s with
  | (.ok a, s') => Q a s'
  | (.error e, s') => E e s'

section Rules

variable {s : Cursor} {Q : α → Cursor → Prop} {E : ε → Cursor → Prop}

theorem wp_mono {Q' : α → Cursor → Prop} {E' : ε → Cursor → Prop} {m : Decoder ε α}
    (h : wp m s Q E) (hQ : ∀ a s', Q a s' → Q' a s') (hE : ∀ e s', E e s' → E' e s') :
    wp m s Q' E' := by
  unfold wp at h ⊢
  rcases hm : m s with ⟨r, s'⟩
  rw [hm] at h
  cases r with
  | ok a => exact hQ a s' h
  | error e => exact hE e s' h

theorem wp_pure {a : α} (h : Q a s) : wp (pure a) s Q E := h

theorem wp_fail {e : ε} (h : E e s) : wp (fail e) s Q E := h

theorem wp_bind {R : β → Cursor → Prop} {m : Decoder ε α} {f : α → Decoder ε β}
    (h : wp m s (fun a s' => wp (f a) s' R E) E) : wp (m >>= f) s R E := by
  change wp (Decoder.bind m f) s R E
  unfold wp at h ⊢
  unfold Decoder.bind
  rcases hm : m s with ⟨r, s'⟩
  rw [hm] at h
  cases r with
  | ok a => exact h
  | error e => exact h

/-- A function of a result is returned if the result is. -/
theorem ok_of_map_ok {r : Except ε α} {f : α → β} {y : β}
    (h : r.map f = .ok y) : ∃ x, r = .ok x ∧ f x = y := by
  cases r with
  | error e => exact absurd h (by simp only [Except.map, reduceCtorEq, not_false_eq_true])
  | ok x => exact ⟨x, rfl, Except.ok.inj h⟩

/-- A decoder that does the same and returns a function of the value. -/
theorem wp_of_map {R : β → Cursor → Prop} {m : Decoder ε α} {m' : Decoder ε β} {f : α → β}
    (hmap : m' s = ((m s).1.map f, (m s).2)) (h : wp m s (fun a s' => R (f a) s') E) :
    wp m' s R E := by
  unfold wp at h ⊢
  rw [hmap]
  rcases hm : m s with ⟨r, s'⟩
  rw [hm] at h
  cases r with
  | ok a => exact h
  | error e => exact h

theorem wp_checkRead {b : Buffer} {n : Nat} {e : ε} {Q : Unit → Cursor → Prop}
    (hfit : s.pos + n ≤ b.size → Q () s) (hsmall : b.size < s.pos + n → E e s) :
    wp (checkRead b n e) s Q E := by
  unfold wp checkRead
  by_cases h : s.pos + n > b.size
  · rw [if_pos h]
    exact hsmall h
  · rw [if_neg h]
    exact hfit (by omega)

theorem wp_readBytes {b : Buffer} {n : Nat} {Q : Bytes n → Cursor → Prop}
    (h : Q (b.bytesAt s.pos n) (s.advance n)) : wp (readBytes b n) s Q E := h

theorem wp_allocating {a : Allocator} {n m : Nat} {e : ε} {x : α} {f : Nat → Except ε α}
    (h : a.Obtains m e (f s.calls) x) (hok : Q x (s.request n))
    (hfail : ¬ a.Grants m → E e (s.request n)) : wp (allocating n f) s Q E := by
  unfold wp allocating
  rcases h with h | ⟨h, hg⟩
  · rw [h]
    exact hok
  · rw [h]
    exact hfail hg

/-- The rule for one request, by its call number. -/
theorem wp_allocate_call {a : Allocator} {n : Nat} {e : ε} {Q : Unit → Cursor → Prop}
    (hok : a.grants s.calls n = true → Q () (s.request 1))
    (hfail : ¬ a.grants s.calls n = true → E e (s.request 1)) : wp (allocate a n e) s Q E := by
  unfold wp allocate allocating
  by_cases h : a.grants s.calls n = true
  · simp only [if_pos h]
    exact hok h
  · simp only [if_neg h]
    exact hfail h

theorem wp_allocate {a : Allocator} {n : Nat} {e : ε} {Q : Unit → Cursor → Prop}
    (hok : a.grants s.calls n = true → Q () (s.request 1))
    (hfail : ¬ a.Grants n → E e (s.request 1)) : wp (allocate a n e) s Q E :=
  wp_allocate_call hok fun h => hfail fun hg => h (hg s.calls n (Nat.le_refl n))

/-- A counted loop keeps an invariant that every round carries to the next
    count. The induction generalises the count already done, so the rounds
    still to come start where the last one ended. -/
theorem wp_loop {body : β → Decoder ε β} (I : Nat → β → Cursor → Prop) {R : β → Cursor → Prop}
    (n : Nat) (acc : β) (hstart : I 0 acc s)
    (hround : ∀ k acc s, k < n → I k acc s → wp (body acc) s (I (k + 1)) E)
    (hdone : ∀ acc s, I n acc s → R acc s) : wp (loop body n acc) s R E := by
  -- `k` rounds are done and `m` are to come.
  have hrun : ∀ m k acc s, k + m = n → I k acc s → wp (loop body m acc) s R E := by
    intro m
    induction m with
    | zero =>
        intro k acc s hk hI
        rw [Nat.add_zero] at hk
        subst hk
        exact wp_pure (hdone acc s hI)
    | succ m ih =>
        intro k acc s hk hI
        refine wp_bind (wp_mono (hround k acc s (by omega) hI) ?_ (fun e s' he => he))
        intro acc' s' hI'
        exact ih (k + 1) acc' s' (by omega) hI'
  exact hrun n 0 acc s (Nat.zero_add n) hstart

/-- A run that meets a specification and ends in a value meets the value's
    postcondition. -/
theorem wp_ok {m : Decoder ε α} {a : α} (h : wp m s Q E) (hrun : (m s).1 = .ok a) :
    Q a (m s).2 := by
  unfold wp at h
  rcases hm : m s with ⟨r, s'⟩
  rw [hm] at h hrun
  simp only at hrun
  subst hrun
  exact h

/-- A run that meets a specification and ends in an error meets the error's
    postcondition. -/
theorem wp_error {m : Decoder ε α} {e : ε} (h : wp m s Q E) (hrun : (m s).1 = .error e) :
    E e (m s).2 := by
  unfold wp at h
  rcases hm : m s with ⟨r, s'⟩
  rw [hm] at h hrun
  simp only at hrun
  subst hrun
  exact h

/-- A run that cannot return a value returns the one error it can. -/
theorem error_of_wp {m : Decoder ε α} {e : ε}
    (h : wp m s (fun _ _ => False) (fun e' _ => e' = e)) : (m s).1 = .error e := by
  rcases hrun : (m s).1 with e' | a
  · rw [wp_error h hrun]
  · exact absurd (wp_ok h hrun) not_false

end Rules

/-- A decoder that requests no memory. -/
def Quiet (m : Decoder ε α) : Prop := ∀ s, (m s).2.calls = s.calls

theorem quiet_pure (a : α) : Quiet (pure a : Decoder ε α) := fun _ => rfl

theorem quiet_fail (e : ε) : Quiet (fail e : Decoder ε α) := fun _ => rfl

theorem quiet_readBytes (b : Buffer) (n : Nat) : Quiet (readBytes b n : Decoder ε (Bytes n)) :=
  fun _ => rfl

theorem quiet_checkRead (b : Buffer) (n : Nat) (e : ε) : Quiet (checkRead b n e) := by
  intro s
  unfold checkRead
  by_cases h : s.pos + n > b.size
  · rw [if_pos h]
  · rw [if_neg h]

theorem quiet_bind {m : Decoder ε α} {f : α → Decoder ε β} (hm : Quiet m)
    (hf : ∀ a, Quiet (f a)) : Quiet (m >>= f) := by
  intro s
  change (Decoder.bind m f s).2.calls = s.calls
  have hs := hm s
  unfold Decoder.bind
  rcases hrun : m s with ⟨_ | a, s'⟩
  · rw [hrun] at hs
    exact hs
  · rw [hrun] at hs
    exact (hf a s').trans hs

/-- A specification of a decoder that requests no memory may say so. -/
theorem wp_quiet {m : Decoder ε α} {s : Cursor} {Q : α → Cursor → Prop}
    {E : ε → Cursor → Prop} (hm : Quiet m) (h : wp m s Q E) :
    wp m s (fun a s' => Q a s' ∧ s'.calls = s.calls) (fun e s' => E e s' ∧ s'.calls = s.calls) := by
  have hs := hm s
  unfold wp at h ⊢
  rcases hrun : m s with ⟨r, s'⟩
  rw [hrun] at h hs
  cases r with
  | ok a => exact ⟨h, hs⟩
  | error e => exact ⟨h, hs⟩

/-- A decoder that never passes the end of its buffer: begun inside it ends
    inside, in a value or in an error. -/
def StaysInside (b : Buffer) (m : Decoder ε α) : Prop :=
  ∀ s, s.pos ≤ b.size → wp m s (fun _ s' => s'.pos ≤ b.size) (fun _ s' => s'.pos ≤ b.size)

theorem staysInside_bind {b : Buffer} {m : Decoder ε α} {f : α → Decoder ε β}
    (hm : StaysInside b m) (hf : ∀ a, StaysInside b (f a)) : StaysInside b (m >>= f) :=
  fun s hs => wp_bind (wp_mono (hm s hs) (fun a s' hs' => hf a s' hs') fun _ _ he => he)

theorem staysInside_allocating (b : Buffer) (n : Nat) (f : Nat → Except ε α) :
    StaysInside b (allocating n f) := by
  intro s hs
  unfold wp allocating
  cases f s.calls with
  | ok a => exact hs
  | error e => exact hs

/-- A loop stays inside if its rounds do. -/
theorem staysInside_loop {b : Buffer} {body : β → Decoder ε β}
    (hbody : ∀ acc, StaysInside b (body acc)) (n : Nat) (acc : β) :
    StaysInside b (loop body n acc) :=
  fun _ hs => wp_loop (fun _ _ s => s.pos ≤ b.size) n acc hs
    (fun _ acc s _ hI => hbody acc s hI) fun _ _ hI => hI

/-- A decoder that stays inside reads nothing outside, however it ends. -/
theorem StaysInside.reads_lt {b : Buffer} {m : Decoder ε α} (h : StaysInside b m) :
    ∀ i ∈ (m .start).2.reads, i < b.size := by
  rw [Cursor.forall_reads_lt_iff]
  have hspec := h .start (Nat.zero_le _)
  rcases hrun : (m .start).1 with e | a
  · exact wp_error hspec hrun
  · exact wp_ok hspec hrun

end Decoder
