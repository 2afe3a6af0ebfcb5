import LeoCoin.Theory.Layout

/-!
# Decoding

What the decoder returns, and where it stops.

The decoder is specified against the layout. If it returns a chain, the chain
is the one the layout describes, every part of it passed its comparisons, and
the cursor is at the end of the last block. If it returns an error, `Stopped`
says at which part it gave up, why, and where the cursor was: everything before
that part passed, the cursor has not gone back behind the beginning of the
part, and apart from that it is inside the buffer.

The proof follows the code. There is one lemma for each field, one for each
loop body, and the two loops are `wp_loop` with the position the layout
predicts as the invariant.

## Main definitions

* `Stopped`: A part at which the decoder may give up, and why.

## Theorems

* `wp_readUInt64`, `wp_readArray`: A field behind its comparison.
* `wp_deserializeTransaction`, `wp_deserializeBlock`: The loop bodies.
* `wp_blockchainDeserialize`: The decoder.
-/

namespace LeoCoin

open Decoder

-- The decoders are looked at through the rules of `wp` only.
attribute [local irreducible] wp

/-- Why and with what position the decoder gives up at a transaction. -/
def TransactionStop (alloc : Allocator) (b : Buffer) (o : Nat) (e : ReturnCode) (pos : Nat) :
    Prop :=
  (o ≤ pos ∧ pos ≤ max b.size o ∧
    (¬ Admitted b o ∧ (e = .failureBufferTooSmall ∨ e = .failureSignatureTooLong) ∨
      ¬ alloc.Grants sizeofTransaction ∧ e = .failureCouldNotMalloc)) ∨
    (Admitted b o ∧ pos = o + 8728 ∧
      ¬ alloc.Grants sizeofTransaction ∧ e = .failureCouldNotMalloc)

/-- The part at which the decoder gives up: the header of the chain, the header
    of a block, or a transaction. Appending to a list counts for the part that
    comes next. -/
inductive Stopped (alloc : Allocator) (b : Buffer) (e : ReturnCode) (pos : Nat) : Prop
  | header (hpos : pos ≤ b.size)
      (hwhy : b.size < 16 ∧ e = .failureBufferTooSmall ∨
        ¬ alloc.Grants sizeofTransaction ∧ e = .failureCouldNotMalloc)
  | block (k : Nat) (hk : k < numBlocksAt b) (hpassed : Passed b k 0)
      (hfrom : blockStart b k ≤ pos) (hto : pos ≤ max b.size (blockStart b k))
      (hwhy : b.size < blockStart b k + 56 ∧ e = .failureBufferTooSmall)
  | transaction (k j : Nat) (hk : k < numBlocksAt b) (hj : j ≤ numTransactionsAt b k)
      (hpassed : Passed b k j) (hheader : blockStart b k + 56 ≤ b.size)
      (hfrom : transactionStart b k j ≤ pos) (hto : pos ≤ max b.size (transactionStart b k j))
      (hwhy : j < numTransactionsAt b k ∧ ¬ Admitted b (transactionStart b k j) ∧
          (e = .failureBufferTooSmall ∨ e = .failureSignatureTooLong) ∨
        ¬ alloc.Grants sizeofTransaction ∧ e = .failureCouldNotMalloc)

section Rules

-- The cursor after a read is described by its position alone.
variable {s : Cursor} {E : ReturnCode → Cursor → Prop} {b : Buffer}

theorem wp_readUInt64 {order : ByteOrder} {Q : UInt64 → Cursor → Prop}
    (hok : ∀ s', s'.pos = s.pos + 8 → s'.pos ≤ b.size → Q (fieldAt b s.pos) s')
    (hfail : b.size < s.pos + 8 → E .failureBufferTooSmall s) :
    wp (readUInt64 order b) s Q E := by
  refine wp_bind (wp_checkRead (fun h => wp_bind (wp_readBytes (wp_pure ?_))) hfail)
  rw [betoh64_loadUInt64]
  exact hok _ (Cursor.advance_pos s 8) h

theorem wp_readArray {n : Nat} {Q : Bytes n → Cursor → Prop}
    (hok : ∀ s', s'.pos = s.pos + n → s'.pos ≤ b.size → Q (b.bytesAt s.pos n) s')
    (hfail : b.size < s.pos + n → E .failureBufferTooSmall s) :
    wp (readArray b n) s Q E :=
  wp_bind (wp_checkRead (fun h => wp_readBytes (hok _ (Cursor.advance_pos s n) h)) hfail)

end Rules

/-- One round of the loop over transactions decodes the transaction at the
    cursor, or gives up there. -/
theorem wp_deserializeTransaction (order : ByteOrder) (alloc : Allocator) (b : Buffer)
    (acc : List Transaction) (s : Cursor) :
    wp (deserializeTransaction order alloc b acc) s
      (fun acc' s' => acc' = acc ++ [transactionAt b s.pos] ∧ s'.pos = s.pos + 8728 ∧
        Admitted b s.pos)
      (fun e s' => TransactionStop alloc b s.pos e s'.pos) := by
  -- A comparison inside the fixed part fails where the one before let the cursor go.
  have hshort : ∀ n m q, q = s.pos + n → n + m ≤ 8216 → n = 0 ∨ q ≤ b.size → b.size < q + m →
      TransactionStop alloc b s.pos .failureBufferTooSmall q := by
    intro n m q hq hnm hn hlt
    refine Or.inl ⟨by omega, by omega, Or.inl ⟨?_, Or.inl rfl⟩⟩
    intro hadm
    have h := hadm.2
    omega
  refine wp_bind (wp_allocate ?_ fun hg =>
    Or.inl ⟨Nat.le_refl _, Nat.le_max_right _ _, Or.inr ⟨hg, rfl⟩⟩)
  intro _
  refine wp_bind (wp_readUInt64 ?_ (hshort 0 8 _ (s.request_pos 1) (by omega) (Or.inl rfl)))
  intro s1 p1 f1
  rw [Cursor.request_pos] at p1 ⊢
  refine wp_bind (wp_readArray ?_ (hshort 8 4096 _ p1 (by omega) (Or.inr f1)))
  intro s2 p2 f2
  simp only [p1, Nat.add_assoc, MAX_SSH_KEY_LENGTH, Nat.reduceAdd] at p2
  refine wp_bind (wp_readArray ?_ (hshort 4104 4096 _ p2 (by omega) (Or.inr f2)))
  intro s3 p3 f3
  simp only [p2, Nat.add_assoc, MAX_SSH_KEY_LENGTH, Nat.reduceAdd] at p3
  refine wp_bind (wp_readUInt64 ?_ (hshort 8200 8 _ p3 (by omega) (Or.inr f3)))
  intro s4 p4 f4
  simp only [p3, Nat.add_assoc, Nat.reduceAdd] at p4
  refine wp_bind (wp_readUInt64 ?_ (hshort 8208 8 _ p4 (by omega) (Or.inr f4)))
  intro s5 p5 f5
  simp only [p4, Nat.add_assoc, Nat.reduceAdd] at p5
  rw [p1, p2, p3, p4]
  -- The fixed part is read. What follows is the signature, behind its own checks.
  by_cases hlong : (fieldAt b (s.pos + 8208)).toNat > MAX_SSH_KEY_LENGTH
  · rw [if_pos hlong]
    exact wp_fail (Or.inl ⟨by omega, by omega,
      Or.inl ⟨fun hadm => absurd hadm.1 (Nat.not_le.mpr hlong), Or.inr rfl⟩⟩)
  rw [if_neg hlong]
  refine wp_bind (wp_checkRead ?_ ?_)
  -- The comparison covers the stored length, and the read covers the array.
  · intro hfit
    have hadm : Admitted b s.pos := ⟨Nat.not_lt.mp hlong, by rw [signatureLengthAt]; omega⟩
    refine wp_bind (wp_readBytes ?_)
    refine wp_allocating (linkedListAppend_obtains alloc _ acc _) ⟨?_, ?_, hadm⟩ ?_
    · rw [p5]
      rfl
    · rw [Cursor.request_pos, Cursor.advance_pos, p5, MAX_SSH_SIGNATURE_LENGTH]
    · intro hg
      refine Or.inr ⟨hadm, ?_, fun h => hg (h.mono (by decide)), rfl⟩
      rw [Cursor.request_pos, Cursor.advance_pos, p5, MAX_SSH_SIGNATURE_LENGTH]
  · intro hsmall
    refine Or.inl ⟨by omega, by omega, Or.inl ⟨?_, Or.inl rfl⟩⟩
    intro hadm
    have h := hadm.2
    rw [signatureLengthAt] at h
    omega

/-- Giving up at a transaction is giving up at that transaction of the chain,
    or at the next one. -/
theorem TransactionStop.stopped {alloc : Allocator} {b : Buffer} {k j : Nat} {e : ReturnCode}
    {pos : Nat} (h : TransactionStop alloc b (transactionStart b k j) e pos)
    (hk : k < numBlocksAt b) (hj : j < numTransactionsAt b k) (hpassed : Passed b k j)
    (hheader : blockStart b k + 56 ≤ b.size) : Stopped alloc b e pos := by
  rcases h with ⟨hfrom, hto, ⟨hadm, he⟩ | hmem⟩ | ⟨hadm, hpos, hmem⟩
  · exact .transaction k j hk (Nat.le_of_lt hj) hpassed hheader hfrom hto (Or.inl ⟨hj, hadm, he⟩)
  · exact .transaction k j hk (Nat.le_of_lt hj) hpassed hheader hfrom hto (Or.inr hmem)
  · rw [← transactionStart_succ] at hpos
    exact .transaction k (j + 1) hk hj (hpassed.transaction hadm) hheader (Nat.le_of_eq hpos.symm)
      (hpos ▸ Nat.le_max_right _ _) (Or.inr hmem)

/-- One round of the loop over blocks decodes the block at the cursor, or gives
    up in it. -/
theorem wp_deserializeBlock (order : ByteOrder) (alloc : Allocator) (now : Int64) (b : Buffer)
    (k : Nat) (hk : k < numBlocksAt b) (acc : Blockchain) (s : Cursor)
    (hpos : s.pos = blockStart b k) (hpassed : Passed b k 0) :
    wp (deserializeBlock order alloc now b acc) s
      (fun acc' s' => acc' = { acc with blockList := acc.blockList ++ [blockAt b s.pos] } ∧
        s'.pos = blockStart b (k + 1) ∧ Passed b (k + 1) 0)
      (fun e s' => Stopped alloc b e s'.pos) := by
  -- A comparison inside the header fails where the one before let the cursor go.
  have hshort : ∀ n m q, q = s.pos + n → n + m ≤ 56 → n = 0 ∨ q ≤ b.size → b.size < q + m →
      Stopped alloc b .failureBufferTooSmall q := by
    intro n m q hq hnm hn hlt
    exact .block k hk hpassed (by omega) (by omega) ⟨by omega, rfl⟩
  refine wp_bind (wp_readUInt64 ?_ (hshort 0 8 _ rfl (by omega) (Or.inl rfl)))
  intro s1 p1 f1
  refine wp_bind (wp_readArray ?_ (hshort 8 32 _ p1 (by omega) (Or.inr f1)))
  intro s2 p2 f2
  simp only [p1, Nat.add_assoc, SHA256_DIGEST_LENGTH, Nat.reduceAdd] at p2
  refine wp_bind (wp_readUInt64 ?_ (hshort 40 8 _ p2 (by omega) (Or.inr f2)))
  intro s3 p3 f3
  simp only [p2, Nat.add_assoc, Nat.reduceAdd] at p3
  refine wp_bind (wp_readUInt64 ?_ (hshort 48 8 _ p3 (by omega) (Or.inr f3)))
  intro s4 p4 f4
  simp only [p3, Nat.add_assoc, Nat.reduceAdd] at p4
  rw [p1, p2, p3]
  have hstart : s4.pos = transactionStart b k 0 := by rw [p4, hpos, transactionStart]
  have hheader : blockStart b k + 56 ≤ b.size := by omega
  -- Memory can be refused with every transaction up to `j` decoded.
  have hmem : ∀ j q, j ≤ numTransactionsAt b k → Passed b k j → q = transactionStart b k j →
      ¬ alloc.Grants sizeofTransaction → Stopped alloc b .failureCouldNotMalloc q :=
    fun j q hj hp hq hg => .transaction k j hk hj hp hheader (Nat.le_of_eq hq.symm)
      (hq ▸ Nat.le_max_right _ _) (Or.inr ⟨hg, rfl⟩)
  refine wp_bind (wp_allocating ((linkedListCreate_obtains alloc _).mono (by decide)) ?_
    (hmem 0 _ (Nat.zero_le _) hpassed hstart))
  -- The loop runs as often as the layout counts transactions.
  have hcount : (fieldAt b (s.pos + 48)).toNat = numTransactionsAt b k := by
    rw [hpos]
    rfl
  -- After `j` rounds the first `j` transactions are in the list, and have passed.
  refine wp_bind (wp_loop (fun j acc' s' =>
    acc' = (List.range j).map (fun j => transactionAt b (transactionStart b k j)) ∧
      s'.pos = transactionStart b k j ∧ Passed b k j) _ _ ⟨rfl, hstart, hpassed⟩ ?_ ?_)
  · intro j acc' s' hj hI
    rw [hcount] at hj
    rcases hI with ⟨hacc, hp, hpass⟩
    refine wp_mono (wp_deserializeTransaction order alloc b acc' s') ?_ ?_
    · intro acc'' s'' h
      rcases h with ⟨ha, hp', hadm⟩
      rw [hp] at ha hp' hadm
      refine ⟨?_, ?_, hpass.transaction hadm⟩
      · rw [ha, hacc, List.range_succ, List.map_append]
        rfl
      · rw [hp', transactionStart_succ]
    · intro e s'' h
      rw [hp] at h
      exact h.stopped hk hj hpass hheader
  · intro acc' s' hI
    rw [hcount] at hI
    rcases hI with ⟨hacc, hp, hpass⟩
    -- The block is still to be made and to be appended to the chain.
    have hend : ∀ q, q = s'.pos → ¬ alloc.Grants sizeofTransaction →
        Stopped alloc b .failureCouldNotMalloc q :=
      fun q hq => hmem _ q (Nat.le_refl _) hpass (hq.trans hp)
    refine wp_bind (wp_allocating ((blockCreate_obtains alloc _ now _ _ _).mono (by decide)) ?_
      (hend _ rfl))
    refine wp_allocating ((blockchainAddBlock_obtains alloc _ acc _).mono (by decide)) ?_
      (hend _ rfl)
    refine ⟨?_, ?_, hpass.block hheader⟩
    · rw [hacc, hpos]
      rfl
    · rw [blockStart_succ, ← hp]
      rfl

/-- The decoder returns the chain the layout describes, or gives up at some
    part of it. -/
theorem wp_blockchainDeserialize (order : ByteOrder) (alloc : Allocator) (now : Int64)
    (b : Buffer) :
    wp (blockchainDeserialize order alloc now b) .start
      (fun c s' => c = blockchainAt b ∧ s'.pos = blockStart b (numBlocksAt b) ∧
        Passed b (numBlocksAt b) 0)
      (fun e s' => Stopped alloc b e s'.pos) := by
  refine wp_bind (wp_readUInt64 ?_ fun h =>
    .header (Nat.zero_le _) (Or.inl ⟨Nat.lt_of_lt_of_le h (by decide), rfl⟩))
  intro s1 p1 f1
  refine wp_bind (wp_allocating ((blockchainCreate_obtains alloc _ _).mono (by decide)) ?_ fun hg =>
    .header f1 (Or.inr ⟨hg, rfl⟩))
  have p1' : (s1.request 2).pos = 8 := p1
  refine wp_bind (wp_readUInt64 ?_ fun h =>
    .header f1 (Or.inl ⟨by omega, rfl⟩))
  intro s2 p2 f2
  rw [p1'] at p2 ⊢
  -- After `k` rounds the chain holds the first `k` blocks of the layout.
  refine wp_loop (fun k acc s' =>
    acc = ⟨(List.range k).map (fun k => blockAt b (blockStart b k)), fieldAt b 0⟩ ∧
      s'.pos = blockStart b k ∧ Passed b k 0) _ _ ⟨rfl, p2, passed_zero b (by omega)⟩ ?_ ?_
  · intro k acc s' hk hI
    rcases hI with ⟨hacc, hp, hpass⟩
    refine wp_mono (wp_deserializeBlock order alloc now b k hk acc s' hp hpass) ?_
      (fun e s'' h => h)
    intro acc' s'' h
    rcases h with ⟨ha, hp', hpass'⟩
    refine ⟨?_, hp', hpass'⟩
    rw [ha, hacc, hp, List.range_succ, List.map_append]
    rfl
  · intro acc s' hI
    exact hI

end LeoCoin
