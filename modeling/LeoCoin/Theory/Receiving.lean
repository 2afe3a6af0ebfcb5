import LeoCoin.Theory.Framing

/-!
# Receiving

Whether `recv_all` comes back.

Once the peer is gone, every further call of `recv` returns the same: zero if
the peer closed the connection, a negative value after an error. What the calls
return is then an infinite sequence, some bytes and after them the ending. The
loop comes back if it does so on a finite part of the sequence.

An error ends the loop. A zero does not: it is neither an error nor progress,
so the loop calls `recv` again, and a connection closed before all bytes have
arrived keeps it busy forever.

## Main definitions

* `Ending`: How a connection ends.
* `callResults`: What the calls return, one by one.
* `ComesBack`: The loop returns after finitely many calls.
* `ComesBackRight`: It does, with the right code.
* `behind`: A result with bytes put in front.

## Theorems

* `recvAll_append`: Calls that are not made do not matter.
* `recvAll_passes`: Bytes that do not suffice are taken off.
* `comesBack_unique`: The loop comes back with one result.
* `comesBackRight_iff`: The condition is exact.
-/

namespace LeoCoin

/-- The peer closes the connection, or an error occurs. -/
inductive Ending where
  | closed
  | failed
  deriving DecidableEq, Repr

/-- What a call returns that reports zero bytes. -/
def Chunk.empty : Chunk := ⟨[], by decide⟩

/-- What every call of `recv` finds after the end. -/
def Ending.arrival : Ending → Arrival
  | closed => .bytes Chunk.empty
  | failed => .failed

/-- What call number `k` finds: one of the chunks, or the ending. -/
def callResults (chunks : List Chunk) (ending : Ending) (k : Nat) : Arrival :=
  match chunks[k]? with
  | some chunk => .bytes chunk
  | none => ending.arrival

/-- The number of bytes that arrive before the end. -/
def totalBytes (chunks : List Chunk) : Nat := (chunks.map Subtype.val).flatten.length

/-- The loop returns a result after at most `k` calls, for some `k`. -/
def ComesBack (len : Nat) (results : Nat → Arrival)
    (result : Except ReturnCode (List UInt8)) : Prop :=
  ∃ k rest, recvAll len ((List.range k).map results) = some (result, rest)

/-- The loop comes back, with success if all the bytes arrive before the end
    and with an error otherwise. -/
def ComesBackRight (len : Nat) (chunks : List Chunk) (ending : Ending) : Prop :=
  ∃ result, ComesBack len (callResults chunks ending) result ∧
    (len ≤ totalBytes chunks → ∃ bs, result = .ok bs ∧ bs.length = len) ∧
    (totalBytes chunks < len → ∃ code, result = .error code)

/-- The result of the loop with bytes put in front that it had already. -/
def behind (bs : List UInt8) :
    Option (Except ReturnCode (List UInt8) × List Arrival) →
      Option (Except ReturnCode (List UInt8) × List Arrival) :=
  Option.map fun r => (r.1.map (bs ++ ·), r.2)

theorem behind_nil (r : Option (Except ReturnCode (List UInt8) × List Arrival)) :
    behind [] r = r := by
  rcases r with _ | ⟨_ | _, _⟩
  · rfl
  · rfl
  · rfl

theorem behind_behind (xs ys : List UInt8)
    (r : Option (Except ReturnCode (List UInt8) × List Arrival)) :
    behind xs (behind ys r) = behind (xs ++ ys) r := by
  rcases r with _ | ⟨_ | bs, _⟩
  · rfl
  · rfl
  · simp only [behind, Option.map_some, Except.map, List.append_assoc]

/-- One round of the loop that takes the whole chunk. -/
theorem recvAll_step (len : Nat) (chunk : Chunk) (arrivals : List Arrival) (hpos : 0 < len)
    (hle : chunk.val.length ≤ len) :
    recvAll len (.bytes chunk :: arrivals) =
      behind chunk.val (recvAll (len - chunk.val.length) arrivals) := by
  rcases len with _ | n
  · exact absurd hpos (Nat.lt_irrefl 0)
  rw [recvAll, if_neg (Nat.not_lt.mpr hle)]
  rcases recvAll (n + 1 - chunk.val.length) arrivals with _ | ⟨_ | _, _⟩
  · rfl
  · rfl
  · rfl

/-- Calls behind the last one that is made do not matter. -/
theorem recvAll_append (len : Nat) (arrivals more rest : List Arrival)
    (result : Except ReturnCode (List UInt8)) (h : recvAll len arrivals = some (result, rest)) :
    recvAll len (arrivals ++ more) = some (result, rest ++ more) := by
  induction arrivals generalizing len result rest with
  | nil =>
      cases len with
      | zero =>
          simp only [recvAll, Option.some.injEq, Prod.mk.injEq] at h
          rcases h with ⟨rfl, rfl⟩
          simp only [recvAll, List.nil_append]
      | succ n => simp only [recvAll, reduceCtorEq] at h
  | cons a arrivals ih =>
      rcases Nat.eq_zero_or_pos len with hzero | hpos
      · subst hzero
        simp only [recvAll, Option.some.injEq, Prod.mk.injEq] at h
        rcases h with ⟨rfl, rfl⟩
        simp only [recvAll]
      rcases len with _ | n
      · exact absurd hpos (Nat.lt_irrefl 0)
      cases a with
      | failed =>
          simp only [recvAll, Option.some.injEq, Prod.mk.injEq] at h
          rcases h with ⟨rfl, rfl⟩
          rfl
      | bytes chunk =>
          by_cases hlong : n + 1 < chunk.val.length
          · rw [recvAll, if_pos hlong, Option.some.injEq, Prod.mk.injEq] at h
            rw [List.cons_append, recvAll, if_pos hlong]
            rcases h with ⟨rfl, rfl⟩
            rfl
          · -- The loop goes on with the other arrivals, whatever follows them.
            rw [recvAll_step _ _ _ hpos (Nat.not_lt.mp hlong), behind, Option.map_eq_some_iff] at h
            rcases h with ⟨⟨result', rest'⟩, hrec, heq⟩
            rw [Prod.mk.injEq] at heq
            rw [List.cons_append, recvAll_step _ _ _ hpos (Nat.not_lt.mp hlong),
              ih _ _ _ hrec, ← heq.1, ← heq.2]
            rfl

/-- Bytes that do not suffice are taken off, and the loop goes on for the
    rest. -/
theorem recvAll_passes (chunks : List Chunk) (len : Nat) (arrivals : List Arrival)
    (h : totalBytes chunks < len) :
    recvAll len (chunks.map .bytes ++ arrivals) =
      behind (chunks.map Subtype.val).flatten (recvAll (len - totalBytes chunks) arrivals) := by
  induction chunks generalizing len with
  | nil => exact (behind_nil _).symm
  | cons chunk chunks ih =>
      have htotal : totalBytes (chunk :: chunks) = chunk.val.length + totalBytes chunks := by
        rw [totalBytes, List.map_cons, List.flatten_cons, List.length_append, totalBytes]
      rw [htotal] at h ⊢
      -- The whole chunk is taken, as even all of them do not suffice.
      rw [List.map_cons, List.cons_append, recvAll_step _ _ _ (by omega) (by omega),
        ih _ (by omega), behind_behind, ← Nat.sub_sub, List.map_cons, List.flatten_cons]

/-- The loop comes back with one result. -/
theorem comesBack_unique (len : Nat) (results : Nat → Arrival)
    (result result' : Except ReturnCode (List UInt8)) (h : ComesBack len results result)
    (h' : ComesBack len results result') : result = result' := by
  rcases h with ⟨k, rest, h⟩
  rcases h' with ⟨k', rest', h'⟩
  -- Run both for the larger number of calls.
  have hk : (List.range (k + k')).map results =
      (List.range k).map results ++ (List.range k').map (fun i => results (k + i)) := by
    rw [List.range_add, List.map_append, List.map_map]
    rfl
  have hk' : (List.range (k + k')).map results =
      (List.range k').map results ++ (List.range k).map (fun i => results (k' + i)) := by
    rw [Nat.add_comm k k', List.range_add, List.map_append, List.map_map]
    rfl
  have e := recvAll_append len _ ((List.range k').map (fun i => results (k + i))) _ _ h
  have e' := recvAll_append len _ ((List.range k).map (fun i => results (k' + i))) _ _ h'
  rw [← hk] at e
  rw [← hk', e, Option.some.injEq, Prod.mk.injEq] at e'
  exact e'.1

/-- The first calls find the chunks, and the next ones the ending. -/
theorem callResults_chunks (chunks : List Chunk) (ending : Ending) (n : Nat) :
    (List.range (chunks.length + n)).map (callResults chunks ending) =
      chunks.map .bytes ++ List.replicate n ending.arrival := by
  rw [List.range_add, List.map_append, List.map_map]
  congr 1
  · refine List.ext_getElem (by simp only [List.length_map, List.length_range]) ?_
    intro i h1 h2
    rw [List.length_map] at h2
    rw [List.getElem_map, List.getElem_range, List.getElem_map, callResults,
      List.getElem?_eq_getElem h2]
  · refine List.ext_getElem (by simp only [List.length_map, List.length_range,
      List.length_replicate]) ?_
    intro i h1 h2
    rw [List.getElem_map, List.getElem_range, List.getElem_replicate, Function.comp_apply,
      callResults, List.getElem?_eq_none (Nat.le_add_right _ _)]

/-- On a closed connection the loop goes on as long as bytes are missing. -/
theorem closed_not_comesBack (len : Nat) (chunks : List Chunk)
    (h : totalBytes chunks < len) (result : Except ReturnCode (List UInt8)) :
    ¬ ComesBack len (callResults chunks .closed) result := by
  rintro ⟨k, rest, hrun⟩
  -- After the chunks there are only empty ones, however many calls are made.
  have hmore := recvAll_append len _ ((List.range chunks.length).map
    fun i => callResults chunks .closed (k + i)) _ _ hrun
  have hall : (List.range k).map (callResults chunks .closed) ++
      (List.range chunks.length).map (fun i => callResults chunks .closed (k + i)) =
      (chunks ++ List.replicate k Chunk.empty).map .bytes ++ [] := by
    rw [List.append_nil, List.map_append, List.map_replicate]
    refine Eq.trans ?_ (callResults_chunks chunks .closed k)
    rw [Nat.add_comm, List.range_add, List.map_append, List.map_map]
    rfl
  have htotal : totalBytes (chunks ++ List.replicate k Chunk.empty) = totalBytes chunks := by
    have hnone : (List.replicate k Chunk.empty.val).flatten = [] := List.flatten_replicate_nil
    rw [totalBytes, List.map_append, List.flatten_append, List.map_replicate, hnone,
      List.append_nil, totalBytes]
  rw [hall, recvAll_passes _ len [] (by omega), htotal] at hmore
  rcases hmissing : len - totalBytes chunks with _ | m
  · omega
  · rw [hmissing] at hmore
    exact absurd hmore (by simp only [recvAll, behind, Option.map_none, reduceCtorEq,
      not_false_eq_true])

/-- The loop comes back, and with the right code, exactly if all the bytes
    arrive before the end or the end is an error. -/
theorem comesBackRight_iff (len : Nat) (chunks : List Chunk) (ending : Ending) :
    ComesBackRight len chunks ending ↔ len ≤ totalBytes chunks ∨ ending = .failed := by
  constructor
  · rintro ⟨result, hback, _⟩
    by_contra hc
    rw [not_or, Nat.not_le] at hc
    cases ending with
    | closed => exact closed_not_comesBack len chunks hc.1 result hback
    | failed => exact hc.2 rfl
  · intro h
    by_cases hle : len ≤ totalBytes chunks
    · -- The bytes are there, and the loop stops as soon as it has them.
      have hsplit := (List.take_append_drop len (chunks.map Subtype.val).flatten).symm
      have hlen : ((chunks.map Subtype.val).flatten.take len).length = len :=
        List.length_take_of_le hle
      rcases recvAll_chunks chunks _ _ hsplit with ⟨chunks', hrun, _⟩
      rw [hlen] at hrun
      refine ⟨.ok _, ⟨chunks.length, chunks'.map .bytes, ?_⟩, fun _ => ⟨_, rfl, hlen⟩,
        fun hlt => absurd hle (Nat.not_le.mpr hlt)⟩
      have hcalls := callResults_chunks chunks ending 0
      rw [Nat.add_zero, List.replicate_zero, List.append_nil] at hcalls
      rw [hcalls]
      exact hrun
    · have hlt : totalBytes chunks < len := Nat.not_le.mp hle
      have hfailed : ending = .failed := h.resolve_left hle
      -- One more call finds the error.
      refine ⟨.error .failureNetworkFunction, ⟨chunks.length + 1, [], ?_⟩,
        fun hc => absurd hc hle, fun _ => ⟨_, rfl⟩⟩
      rw [callResults_chunks, recvAll_passes chunks len _ hlt, hfailed]
      rcases hmissing : len - totalBytes chunks with _ | m
      · omega
      · rfl

/-- Asked for a header on a connection that is closed at once, the loop does
    not come back. -/
theorem closedAtOnce_not_comesBack :
    ¬ ∀ (len : Nat) (chunks : List Chunk) (ending : Ending), ComesBackRight len chunks ending := by
  intro h
  rcases h sizeofCommandHeader [] .closed with ⟨result, hback, _⟩
  exact closed_not_comesBack sizeofCommandHeader [] (by decide) result hback

end LeoCoin
