import LeoCoin.Theory.Decoding

/-!
# Read Bounds

Which buffers the decoder stays inside.

Every comparison but one is made for the bytes that are read next. The one in
front of a signature is made for the stored length, and then the whole array
is read. A transaction that ends the buffer with a short signature therefore
passes its comparisons and is read beyond the end. After that the cursor is
past the end and the next comparison fails, so at most one transaction is read
beyond the end, and everything before it lies inside.

`TransactionsInside` is the condition on the buffer that excludes this. It
concerns only transactions the decoder gets to, and those are determined by the
counts and lengths in the buffer.

## Main definitions

* `TransactionsInside`: No transaction the decoder admits exceeds the buffer.
* `shortSignature`: A buffer that ends inside an admitted signature.

## Theorems

* `pos_le_size`: Under the condition the cursor stays inside.
* `le_pos_of_admitted`: An admitted transaction is read to its end.
* `blockchainDeserialize_reads_iff`: The condition is exact.
-/

namespace LeoCoin

/-- No transaction that the decoder reaches and admits exceeds the buffer. -/
def TransactionsInside (b : Buffer) : Prop :=
  ∀ k j, k < numBlocksAt b → j < numTransactionsAt b k → Passed b k j →
    Admitted b (transactionStart b k j) → transactionStart b k j + 8728 ≤ b.size

/-- The transactions before a given one, and the headers, leave the cursor
    inside the buffer. -/
theorem transactionStart_le_size (b : Buffer) (h : TransactionsInside b) (k j : Nat)
    (hk : k < numBlocksAt b) (hj : j ≤ numTransactionsAt b k) (hpassed : Passed b k j)
    (hheader : blockStart b k + 56 ≤ b.size) : transactionStart b k j ≤ b.size := by
  cases j with
  | zero => exact hheader
  | succ i =>
      rw [transactionStart_succ]
      -- The transaction before was admitted, so it ends inside.
      exact h k i hk hj ⟨hpassed.header, hpassed.headers, hpassed.blocks,
        fun j' hj' => hpassed.transactions j' (Nat.lt_succ_of_lt hj')⟩
        (hpassed.transactions i (Nat.lt_succ_self i))

theorem blockStart_le_size (b : Buffer) (h : TransactionsInside b) (k : Nat)
    (hk : k ≤ numBlocksAt b) (hpassed : Passed b k 0) : blockStart b k ≤ b.size := by
  cases k with
  | zero => exact hpassed.header
  | succ i =>
      rw [blockStart_succ]
      -- A block begins where the last transaction of the block before ends.
      exact transactionStart_le_size b h i _ hk (Nat.le_refl _)
        ⟨hpassed.header, fun k' hk' => hpassed.headers k' (Nat.lt_succ_of_lt hk'),
          fun k' j' hk' => hpassed.blocks k' j' (Nat.lt_succ_of_lt hk'),
          fun j' hj' => hpassed.blocks i j' (Nat.lt_succ_self i) hj'⟩
        (hpassed.headers i (Nat.lt_succ_self i))

/-- Under the condition, the decoder ends with its cursor inside the buffer,
    whatever it returns. -/
theorem pos_le_size (order : ByteOrder) (alloc : Allocator) (now : Int64) (b : Buffer)
    (h : TransactionsInside b) :
    (blockchainDeserialize order alloc now b .start).2.pos ≤ b.size := by
  have hspec := wp_blockchainDeserialize order alloc now b
  rcases hrun : (blockchainDeserialize order alloc now b .start).1 with e | c
  · rcases Decoder.wp_error hspec hrun with ⟨hpos, _⟩ | ⟨k, hk, hpassed, _, hto, hlt, _⟩ |
      ⟨k, j, hk, hj, hpassed, hheader, _, hto, _⟩
    · exact hpos
    -- Giving up does not move the cursor past the size or the part.
    · have hle := blockStart_le_size b h k (Nat.le_of_lt hk) hpassed
      exact Nat.le_trans hto (Nat.max_le.mpr ⟨Nat.le_refl _, hle⟩)
    · have hle := transactionStart_le_size b h k j hk hj hpassed hheader
      exact Nat.le_trans hto (Nat.max_le.mpr ⟨Nat.le_refl _, hle⟩)
  · rcases Decoder.wp_ok hspec hrun with ⟨_, hpos, hpassed⟩
    rw [hpos]
    exact blockStart_le_size b h _ (Nat.le_refl _) hpassed

/-- With memory granted, a transaction that the decoder reaches and admits is
    read to its end. It cannot give up at an earlier part, as those pass, and
    giving up at a later part leaves the cursor further on. -/
theorem le_pos_of_admitted (order : ByteOrder) (alloc : Allocator) (now : Int64) (b : Buffer)
    (halloc : alloc.Grants sizeofTransaction) (k j : Nat) (hk : k < numBlocksAt b)
    (hj : j < numTransactionsAt b k) (hpassed : Passed b k j)
    (hadm : Admitted b (transactionStart b k j)) :
    transactionStart b k j + 8728 ≤ (blockchainDeserialize order alloc now b .start).2.pos := by
  have hspec := wp_blockchainDeserialize order alloc now b
  rcases hrun : (blockchainDeserialize order alloc now b .start).1 with e | c
  · rcases Decoder.wp_error hspec hrun with ⟨_, ⟨hlt, _⟩ | ⟨hg, _⟩⟩ |
      ⟨k', hk', _, hfrom, _, hlt, _⟩ |
      ⟨k', j', hk', _, _, _, hfrom, _, ⟨hj', hbad, _⟩ | ⟨hg, _⟩⟩
    -- Before the first block, only a short header makes the decoder give up.
    · have h16 := hpassed.header
      omega
    · exact absurd halloc hg
    · rcases Nat.lt_or_ge k k' with hlater | hearlier
      · exact Nat.le_trans (transactionStart_lt_blockStart b hlater hj) hfrom
      · -- The header of a block up to `k` lies before the admitted transaction.
        have hmono := blockStart_mono b hearlier
        have hin := hadm.2
        unfold transactionStart at hin
        omega
    -- A refused transaction is none of those that pass, so it comes later.
    · rcases Nat.lt_trichotomy k k' with hlater | heq | hearlier
      · refine Nat.le_trans (transactionStart_lt_blockStart b hlater hj) (Nat.le_trans ?_ hfrom)
        unfold transactionStart
        omega
      · subst heq
        rcases Nat.lt_trichotomy j j' with hlt | heq | hgt
        · exact Nat.le_trans (transactionStart_lt b k hlt) hfrom
        · exact absurd hadm (heq ▸ hbad)
        · exact absurd (hpassed.transactions j' hgt) hbad
      · exact absurd (hpassed.blocks k' j' hearlier hj') hbad
    · exact absurd halloc hg
  · rw [(Decoder.wp_ok hspec hrun).2.1]
    exact transactionStart_lt_blockStart b hk hj

/-- The decoder reads nothing past the end of its buffer, whatever memory it
    is refused, exactly if no transaction it admits exceeds the buffer. -/
theorem blockchainDeserialize_reads_iff (order : ByteOrder) (now : Int64) (b : Buffer) :
    (∀ alloc, ∀ i ∈ (blockchainDeserialize order alloc now b .start).2.reads, i < b.size) ↔
      TransactionsInside b := by
  constructor
  -- Grant everything. The transaction is then read to its end, inside the buffer.
  · intro h k j hk hj hpassed hadm
    have hpos := (Cursor.forall_reads_lt_iff _ _).mp (h .generous)
    exact Nat.le_trans (le_pos_of_admitted order .generous now b
      (Allocator.generous_grants _ (by decide)) k j hk hj hpassed hadm) hpos
  · intro h alloc
    exact (Cursor.forall_reads_lt_iff _ _).mpr (pos_le_size order alloc now b h)

/-- A chain of one block with one transaction, cut off where the signature
    array begins. The stored signature length is zero. -/
def shortSignature : Buffer where
  byte i := if i = 15 ∨ i = 71 then 1 else 0
  size := 8288

/-- The decoder reads 512 bytes past the end of that buffer. -/
theorem shortSignature_overrun :
    ¬ ∀ (order : ByteOrder) (alloc : Allocator) (now : Int64) (b : Buffer),
      ∀ i ∈ (blockchainDeserialize order alloc now b .start).2.reads, i < b.size := by
  intro h
  have hpos := (Cursor.forall_reads_lt_iff _ _).mp (h .little .generous 0 shortSignature)
  have hpassed : Passed shortSignature 0 0 := passed_zero _ (by decide)
  -- The record ends at offset 8800, 512 bytes past the size.
  have hread := le_pos_of_admitted .little .generous 0 shortSignature
    (Allocator.generous_grants _ (by decide)) 0 0 (by decide) (by decide) hpassed
    ⟨by decide, by decide⟩
  exact absurd (Nat.le_trans hread hpos) (by decide)

end LeoCoin
