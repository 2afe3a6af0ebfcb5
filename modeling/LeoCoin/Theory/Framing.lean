import LeoCoin.Core.Networking
import LeoCoin.Theory.RoundTrip

/-!
# Framing

What the two loops transfer, and what the header decoder returns.

A successful loop has received as many bytes as it was asked for, or sent all it
was given. How the stream is cut does not matter. What the loops do with a
stream that ends is in the modules on receiving.

A frame is a header, and then a payload that begins with its length. The header
is read off the first sixteen bytes: the prefix, the command and the length of
the payload lie at fixed offsets.

## Main definitions

* `commandHeaderAt`: The header at the beginning of a buffer.
* `frameBytes`, `headerBytes`: The encoding of a frame and of its header.

## Theorems

* `recvAll_length`: What is received has the requested length.
* `recvAll_chunks`: A stream is received however it is cut.
* `sendAll_success`: A successful loop has sent everything.
* `wp_commandHeaderDeserialize`: What the header decoder returns.
* `commandHeaderSerialize_ok_iff`: What the header encoder returns.
* `frameBytes_split`: A frame is its header and then its payload.
-/

namespace LeoCoin

open Decoder

/-- Success means exactly the requested number of bytes. -/
theorem recvAll_length (len : Nat) (arrivals rest : List Arrival) (bs : List UInt8)
    (h : recvAll len arrivals = some (.ok bs, rest)) : bs.length = len := by
  induction arrivals generalizing len bs rest with
  | nil =>
      cases len with
      | zero =>
          simp only [recvAll, Option.some.injEq, Prod.mk.injEq, Except.ok.injEq] at h
          rw [← h.1, List.length_nil]
      | succ n => simp only [recvAll, reduceCtorEq] at h
  | cons a arrivals ih =>
      cases len with
      | zero =>
          simp only [recvAll, Option.some.injEq, Prod.mk.injEq, Except.ok.injEq] at h
          rw [← h.1, List.length_nil]
      | succ n =>
          cases a with
          | failed => simp only [recvAll, Option.some.injEq, Prod.mk.injEq, reduceCtorEq,
              false_and] at h
          | bytes chunk =>
              unfold recvAll at h
              by_cases hlong : n + 1 < chunk.val.length
              · rw [if_pos hlong, Option.some.injEq, Prod.mk.injEq, Except.ok.injEq] at h
                rw [← h.1, List.length_take]
                omega
              · rw [if_neg hlong] at h
                -- The loop goes on for what is still missing.
                rcases hrest : recvAll (n + 1 - chunk.val.length) arrivals with
                  _ | ⟨code | tail, rest'⟩
                · simp only [hrest, reduceCtorEq] at h
                · simp only [hrest, Option.some.injEq, Prod.mk.injEq, reduceCtorEq,
                    false_and] at h
                · simp only [hrest, Option.some.injEq, Prod.mk.injEq, Except.ok.injEq] at h
                  have hlen := ih _ _ _ hrest
                  rw [← h.1, List.length_append]
                  omega

/-- From a stream without errors, however it is cut, a loop receives the bytes
    it asks for and leaves the rest. -/
theorem recvAll_chunks (chunks : List Chunk) (bs rest : List UInt8)
    (h : (chunks.map Subtype.val).flatten = bs ++ rest) :
    ∃ chunks' : List Chunk,
      recvAll bs.length (chunks.map .bytes) = some (.ok bs, chunks'.map .bytes) ∧
      (chunks'.map Subtype.val).flatten = rest := by
  induction chunks generalizing bs with
  | nil =>
      rcases List.append_eq_nil_iff.mp h.symm with ⟨rfl, rfl⟩
      exact ⟨[], rfl, rfl⟩
  | cons chunk chunks ih =>
      rw [List.map_cons, List.flatten_cons] at h
      rcases hbs : bs with _ | ⟨x, xs⟩
      · rw [hbs, List.nil_append] at h
        exact ⟨chunk :: chunks, rfl, h⟩
      rw [← hbs, List.map_cons, show bs.length = xs.length + 1 by rw [hbs, List.length_cons]]
      unfold recvAll
      by_cases hlong : xs.length + 1 < chunk.val.length
      · -- The chunk holds more than is asked for, so it is cut.
        rw [if_pos hlong]
        have hlen : bs.length ≤ chunk.val.length := by
          rw [hbs, List.length_cons]
          omega
        have htake : chunk.val.take bs.length = bs := by
          have heq := congrArg (List.take bs.length) h
          rwa [List.take_append_of_le_length hlen, List.take_left] at heq
        have hdrop : chunk.val.drop bs.length ++ (chunks.map Subtype.val).flatten = rest := by
          have heq := congrArg (List.drop bs.length) h
          rwa [List.drop_append_of_le_length hlen, List.drop_left] at heq
        rw [hbs, List.length_cons] at htake hdrop
        refine ⟨Chunk.rest chunk (xs.length + 1) :: chunks, ?_, hdrop⟩
        rw [htake, hbs]
        rfl
      · -- The whole chunk is taken, and the loop goes on.
        rw [if_neg hlong]
        have hlen : chunk.val.length ≤ bs.length := by
          rw [hbs, List.length_cons]
          omega
        have htake : bs.take chunk.val.length = chunk.val := by
          have heq := congrArg (List.take chunk.val.length) h
          rw [List.take_left, List.take_append_of_le_length hlen] at heq
          exact heq.symm
        have hdrop : (chunks.map Subtype.val).flatten = bs.drop chunk.val.length ++ rest := by
          have heq := congrArg (List.drop chunk.val.length) h
          rwa [List.drop_left, List.drop_append_of_le_length hlen] at heq
        have hall := List.take_append_drop chunk.val.length bs
        rw [htake] at hall
        rcases ih _ hdrop with ⟨chunks', hrec, hrest⟩
        rw [List.length_drop, hbs, List.length_cons, ← hbs] at hrec
        refine ⟨chunks', ?_, hrest⟩
        rw [hrec]
        simp only [hall]

/-- Success means that every byte was accepted. -/
theorem sendAll_success (acceptances : List Acceptance) (bs sent : List UInt8)
    (h : sendAll bs acceptances = (some (.ok ()), sent)) : sent = bs := by
  induction acceptances generalizing bs sent with
  | nil =>
      cases bs with
      | nil =>
          simp only [sendAll, Prod.mk.injEq, true_and] at h
          exact h.symm
      | cons b bs => simp only [sendAll, Prod.mk.injEq, reduceCtorEq, false_and] at h
  | cons a acceptances ih =>
      cases bs with
      | nil =>
          simp only [sendAll, Prod.mk.injEq, true_and] at h
          exact h.symm
      | cons b bs =>
          cases a with
          | failed =>
              simp only [sendAll, Prod.mk.injEq, Option.some.injEq, reduceCtorEq, false_and] at h
          | accepted n =>
              rw [sendAll, Prod.mk.injEq] at h
              -- The loop goes on with the bytes not accepted, and succeeds on them.
              have hrest := ih _ (sendAll ((b :: bs).drop n) acceptances).2 (Prod.ext h.1 rfl)
              rw [← h.2, hrest]
              exact List.take_append_drop n (b :: bs)

/-- The header at the beginning of a buffer. -/
def commandHeaderAt (b : Buffer) : CommandHeader where
  commandPrefix := b.bytesAt 0 4
  command := UInt32.ofNat (bigEndianValue (slice b.byte 4 4))
  commandLen := fieldAt b 8

/-- Reading a prefix succeeds exactly on the bytes of the prefix. -/
theorem wp_readPrefix (b : Buffer) (cs : List UInt8) (s : Cursor) :
    wp (readPrefix b cs) s
      (fun _ s' => slice b.byte s.pos cs.length = cs ∧ s'.pos = s.pos + cs.length)
      (fun e _ => e = .failureInvalidCommandPrefix ∧ slice b.byte s.pos cs.length ≠ cs) := by
  induction cs generalizing s with
  | nil => exact wp_pure ⟨rfl, rfl⟩
  | cons c cs ih =>
      -- The first byte is compared by this round, the others by the next ones.
      have hslice : slice b.byte s.pos (c :: cs).length =
          b.byte s.pos :: slice b.byte (s.pos + 1) cs.length := by
        rw [List.length_cons, Nat.add_comm, slice_append]
        rfl
      rw [hslice]
      refine wp_bind (wp_readBytes ?_)
      change wp (if b.byte s.pos ≠ c then _ else _) _ _ _
      by_cases hc : b.byte s.pos = c
      · rw [if_neg (not_not_intro hc)]
        refine wp_mono (ih (s.advance 1)) ?_ ?_
        · intro _ s' h
          rw [Cursor.advance_pos] at h
          refine ⟨by rw [hc, h.1], ?_⟩
          rw [h.2, List.length_cons]
          omega
        · intro e s' h
          refine ⟨h.1, fun heq => h.2 ?_⟩
          rw [Cursor.advance_pos]
          exact (List.cons.inj heq).2
      · rw [if_pos hc]
        exact wp_fail ⟨rfl, fun heq => hc (List.cons.inj heq).1⟩

/-- The header decoder returns the header at the beginning of the buffer, if
    the buffer is long enough and begins with the prefix. -/
theorem wp_commandHeaderDeserialize (order : ByteOrder) (b : Buffer) :
    wp (commandHeaderDeserialize order b) .start
      (fun header s' => header = commandHeaderAt b ∧ b.bytesAt 0 4 = COMMAND_PREFIX ∧
        s'.pos = 16 ∧ 16 ≤ b.size)
      (fun e _ => (e = .failureBufferTooSmall ∧ b.size < 16) ∨
        (e = .failureInvalidCommandPrefix ∧ b.bytesAt 0 4 ≠ COMMAND_PREFIX)) := by
  have hsmall : ∀ n, n ≤ 16 → b.size < n → (ReturnCode.failureBufferTooSmall =
      .failureBufferTooSmall ∧ b.size < 16) ∨ (ReturnCode.failureBufferTooSmall =
      .failureInvalidCommandPrefix ∧ b.bytesAt 0 4 ≠ COMMAND_PREFIX) :=
    fun n hn hlt => Or.inl ⟨rfl, by omega⟩
  refine wp_bind (wp_checkRead ?_ (hsmall 4 (by omega)))
  intro _
  refine wp_bind (wp_mono (wp_readPrefix b COMMAND_PREFIX.toList .start) ?_ ?_)
  -- The prefix is there, so the header decoder reads on at offset four.
  · intro _ s1 h1
    have hfront : b.bytesAt 0 4 = COMMAND_PREFIX := List.Vector.eq _ _ h1.1
    have p1 : s1.pos = 4 := h1.2
    refine wp_bind (wp_readArray ?_ fun h => hsmall 8 (by omega) (by omega))
    intro s2 p2 f2
    refine wp_bind (wp_readUInt64 ?_ fun h => hsmall 16 (by omega) (by omega))
    intro s3 p3 f3
    have p2' : s2.pos = 8 := by omega
    refine wp_pure ⟨?_, hfront, by omega, by omega⟩
    rw [commandHeaderAt, hfront, p1, p2']
    rfl
  · intro e s1 h1
    exact Or.inr ⟨h1.1, fun heq => h1.2 (congrArg List.Vector.toList heq)⟩

/-- The encoding of a frame. -/
def frameBytes (order : ByteOrder) (header : CommandHeader) (data : SerializationBuffer) :
    List UInt8 :=
  header.commandPrefix.toList ++ bigEndian 4 header.command.toNat ++
    storeUInt64 order (htobe64 order header.commandLen) ++
    storeUInt64 order (htobe64 order data.size) ++ data.bytes

theorem frameBytes_length (order : ByteOrder) (header : CommandHeader)
    (data : SerializationBuffer) :
    (frameBytes order header data).length = 24 + data.size.toNat := by
  simp only [frameBytes, List.length_append, List.Vector.toList_length, bigEndian_length,
    storeUInt64_length, data.bytes_length]

/-- The encoding of a header. -/
def headerBytes (order : ByteOrder) (header : CommandHeader) : List UInt8 :=
  header.commandPrefix.toList ++ bigEndian 4 header.command.toNat ++
    storeUInt64 order (htobe64 order header.commandLen)

theorem headerBytes_length (order : ByteOrder) (header : CommandHeader) :
    (headerBytes order header).length = 16 := by
  simp only [headerBytes, List.length_append, List.Vector.toList_length, bigEndian_length,
    storeUInt64_length]

/-- The header encoder returns the encoding of a header with the right prefix,
    if its memory is granted. -/
theorem commandHeaderSerialize_ok_iff (order : ByteOrder) (alloc : Allocator) (call : Nat)
    (header : CommandHeader) (bs : List UInt8) :
    commandHeaderSerialize order alloc call header = .ok bs ↔
      alloc.grants call sizeofCommandHeader = true ∧ header.commandPrefix = COMMAND_PREFIX ∧
        bs = headerBytes order header := by
  unfold commandHeaderSerialize headerBytes
  by_cases hgrant : alloc.grants call sizeofCommandHeader = true
  · by_cases hfront : header.commandPrefix = COMMAND_PREFIX
    · simp only [hgrant, hfront, ne_eq, not_true_eq_false, if_false, Except.ok.injEq, true_and,
        eq_comm]
    · simp only [hgrant, hfront, ne_eq, not_true_eq_false, not_false_eq_true, if_false, if_true,
        reduceCtorEq, false_and, and_false]
  · simp only [hgrant, not_false_eq_true, if_true, reduceCtorEq, false_and]

/-- A frame is its header and then its payload. -/
theorem frameBytes_split (order : ByteOrder) (header : CommandHeader)
    (data : SerializationBuffer) :
    frameBytes order header data = headerBytes order header ++
      (storeUInt64 order (htobe64 order data.size) ++ data.bytes) := by
  rw [frameBytes, headerBytes, List.append_assoc]

end LeoCoin
