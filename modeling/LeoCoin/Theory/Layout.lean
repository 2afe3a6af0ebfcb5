import LeoCoin.Core.Deserialize
import LeoCoin.Core.Serialize

/-!
# Layout

Where the parts of an encoded chain lie, read off the bytes alone.

The layout of a buffer is determined by the counts it contains: the number of
blocks at offset eight, and the number of transactions in each block header.
`blockStart` and `transactionStart` are the offsets that follow from them, for
any bytes at all, and `transactionAt`, `blockAt` and `blockchainAt` are what
lies there. Nothing in these definitions can fail. Which of them describe
something the decoder returns is a question of the buffer size, and that is
what `Admitted` and `Passed` are about.

`Holds` is the converse view: given bytes lie at a place of memory. An encoding
held at an offset is read back by the layout at that offset.

## Main definitions

* `fieldAt`: An integer at an offset.
* `transactionAt`, `blockAt`, `blockchainAt`: What lies at an offset.
* `blockStart`, `transactionStart`: The offsets the counts determine.
* `Admitted`: The bounds a transaction has to pass to be decoded.
* `Passed`: Everything before a given transaction passes its bounds.
* `Holds`: Bytes that lie at an offset.

## Theorems

* `blockStart_mono`, `transactionStart_lt`: Later parts lie further on.
* `holds_spelling`, `holds_fieldAt`, `holds_bytesAt`: Fields are written as they
  were read.
* `transactionAt_of_holds`, `blockAt_of_holds`: An encoding is read back.
* `blocks_of_holds`: A sequence of encoded blocks is read back.
-/

namespace LeoCoin

def fieldAt (b : Buffer) (p : Nat) : UInt64 := UInt64.ofNat (bigEndianValue (slice b.byte p 8))

def transactionAt (b : Buffer) (o : Nat) : Transaction where
  createdAt := (fieldAt b o).toInt64
  senderPublicKey := b.bytesAt (o + 8) MAX_SSH_KEY_LENGTH
  recipientPublicKey := b.bytesAt (o + 4104) MAX_SSH_KEY_LENGTH
  amount := fieldAt b (o + 8200)
  senderSignature :=
    { length := fieldAt b (o + 8208), bytes := b.bytesAt (o + 8216) MAX_SSH_SIGNATURE_LENGTH }

/-- The number of transactions announced by the block header at an offset. -/
def countAt (b : Buffer) (p : Nat) : Nat := (fieldAt b (p + 48)).toNat

def blockAt (b : Buffer) (p : Nat) : Block where
  createdAt := (fieldAt b p).toInt64
  transactionList := (List.range (countAt b p)).map fun j => transactionAt b (p + 56 + 8728 * j)
  proofOfWork := fieldAt b (p + 40)
  previousBlockHash := b.bytesAt (p + 8) SHA256_DIGEST_LENGTH

/-- The number of blocks announced by the buffer. -/
def numBlocksAt (b : Buffer) : Nat := (fieldAt b 8).toNat

/-- The offset of block `k`. -/
def blockStart (b : Buffer) : Nat → Nat
  | 0 => 16
  | k + 1 => blockStart b k + 56 + 8728 * countAt b (blockStart b k)

/-- The number of transactions of block `k`. -/
def numTransactionsAt (b : Buffer) (k : Nat) : Nat := countAt b (blockStart b k)

/-- The offset of transaction `j` of block `k`. -/
def transactionStart (b : Buffer) (k j : Nat) : Nat := blockStart b k + 56 + 8728 * j

def blockchainAt (b : Buffer) : Blockchain where
  blockList := (List.range (numBlocksAt b)).map fun k => blockAt b (blockStart b k)
  numLeadingZeroBytesRequiredInBlockHash := fieldAt b 0

/-- The signature length stored by the transaction at an offset. -/
def signatureLengthAt (b : Buffer) (o : Nat) : Nat := (fieldAt b (o + 8208)).toNat

theorem transactionAt_signatureLength (b : Buffer) (o : Nat) :
    (transactionAt b o).senderSignature.length.toNat = signatureLengthAt b o := rfl

/-- The transaction at an offset passes every comparison made for it. -/
def Admitted (b : Buffer) (o : Nat) : Prop :=
  signatureLengthAt b o ≤ MAX_SSH_KEY_LENGTH ∧ o + 8216 + signatureLengthAt b o ≤ b.size

/-- The header of the chain, and every block header and every transaction
    before transaction `j` of block `k`, pass the comparisons made for them. -/
structure Passed (b : Buffer) (k j : Nat) : Prop where
  header : 16 ≤ b.size
  headers : ∀ k', k' < k → blockStart b k' + 56 ≤ b.size
  blocks : ∀ k' j', k' < k → j' < numTransactionsAt b k' → Admitted b (transactionStart b k' j')
  transactions : ∀ j', j' < j → Admitted b (transactionStart b k j')

theorem passed_zero (b : Buffer) (h : 16 ≤ b.size) : Passed b 0 0 where
  header := h
  headers := fun _ h => absurd h (Nat.not_lt_zero _)
  blocks := fun _ _ h => absurd h (Nat.not_lt_zero _)
  transactions := fun _ h => absurd h (Nat.not_lt_zero _)

/-- One more transaction of the block passes. -/
theorem Passed.transaction {b : Buffer} {k j : Nat} (h : Passed b k j)
    (hadm : Admitted b (transactionStart b k j)) : Passed b k (j + 1) where
  header := h.header
  headers := h.headers
  blocks := h.blocks
  transactions := fun j' hj' => by
    rcases Nat.lt_succ_iff_lt_or_eq.mp hj' with hlt | heq
    · exact h.transactions j' hlt
    · exact heq ▸ hadm

/-- All transactions of the block have passed, so the block has. -/
theorem Passed.block {b : Buffer} {k : Nat} (h : Passed b k (numTransactionsAt b k))
    (hheader : blockStart b k + 56 ≤ b.size) : Passed b (k + 1) 0 where
  header := h.header
  headers := fun k' hk' => by
    rcases Nat.lt_succ_iff_lt_or_eq.mp hk' with hlt | heq
    · exact h.headers k' hlt
    · exact heq ▸ hheader
  blocks := fun k' j' hk' hj' => by
    rcases Nat.lt_succ_iff_lt_or_eq.mp hk' with hlt | heq
    · exact h.blocks k' j' hlt hj'
    · subst heq
      exact h.transactions j' hj'
  transactions := fun _ h => absurd h (Nat.not_lt_zero _)

theorem transactionStart_succ (b : Buffer) (k j : Nat) :
    transactionStart b k (j + 1) = transactionStart b k j + 8728 := by
  unfold transactionStart
  omega

theorem blockStart_succ (b : Buffer) (k : Nat) :
    blockStart b (k + 1) = transactionStart b k (numTransactionsAt b k) := rfl

theorem blockStart_mono (b : Buffer) {k k' : Nat} (h : k ≤ k') :
    blockStart b k ≤ blockStart b k' := by
  induction h with
  | refl => exact Nat.le_refl _
  | step _ ih =>
      refine Nat.le_trans ih ?_
      rw [blockStart]
      omega

/-- A transaction ends before every later one of its block begins. -/
theorem transactionStart_lt (b : Buffer) (k : Nat) {j j' : Nat} (h : j < j') :
    transactionStart b k j + 8728 ≤ transactionStart b k j' := by
  unfold transactionStart
  omega

/-- A transaction of a block ends before every later block begins. -/
theorem transactionStart_lt_blockStart (b : Buffer) {k k' j : Nat} (hk : k < k')
    (hj : j < numTransactionsAt b k) : transactionStart b k j + 8728 ≤ blockStart b k' :=
  calc transactionStart b k j + 8728
      ≤ transactionStart b k (numTransactionsAt b k) := transactionStart_lt b k hj
    _ = blockStart b (k + 1) := (blockStart_succ b k).symm
    _ ≤ blockStart b k' := blockStart_mono b hk

/-- The given bytes lie at an offset. -/
def Holds (b : Buffer) (p : Nat) (bs : List UInt8) : Prop := slice b.byte p bs.length = bs

theorem holds_append (b : Buffer) (p : Nat) (xs ys : List UInt8) :
    Holds b p (xs ++ ys) ↔ Holds b p xs ∧ Holds b (p + xs.length) ys := by
  unfold Holds
  rw [List.length_append, slice_append]
  constructor
  · intro h
    -- The two slices and the two pieces split the bytes at one place.
    exact List.append_inj h (slice_length _ _ _)
  · rintro ⟨hx, hy⟩
    rw [hx, hy]

/-- Concatenated encodings of one width lie at multiples of the width. -/
theorem holds_flatten (b : Buffer) {α : Type} (f : α → List UInt8) (w : Nat)
    (hlen : ∀ x, (f x).length = w) (xs : List α) (p : Nat) (h : Holds b p (xs.map f).flatten)
    (j : Nat) (hj : j < xs.length) : Holds b (p + w * j) (f xs[j]) := by
  induction xs generalizing p j with
  | nil => exact absurd hj (Nat.not_lt_zero _)
  | cons x xs ih =>
      rw [List.map_cons, List.flatten_cons, holds_append, hlen] at h
      cases j with
      | zero => exact h.1
      | succ j =>
          rw [List.getElem_cons_succ, Nat.mul_succ, Nat.add_comm (w * j), ← Nat.add_assoc]
          -- The tail of the encodings begins one width further on.
          exact ih (p + w) h.2 j (Nat.lt_of_succ_lt_succ hj)

theorem fieldAt_of_holds (b : Buffer) (p : Nat) (order : ByteOrder) (x : UInt64)
    (h : Holds b p (storeUInt64 order (htobe64 order x))) : fieldAt b p = x := by
  rw [storeUInt64_htobe64, Holds, bigEndian_length] at h
  rw [fieldAt, h, bigEndianValue_bigEndian_of_lt x.toNat_lt, UInt64.ofNat_toNat]

theorem bytesAt_of_holds (b : Buffer) (p n : Nat) (v : Bytes n) (h : Holds b p v.toList) :
    b.bytesAt p n = v := by
  rw [Holds, List.Vector.toList_length] at h
  exact List.Vector.eq _ _ h

/-- The value that some bytes spell fits as many bytes. -/
theorem slice_value_lt (b : Buffer) (p n : Nat) : bigEndianValue (slice b.byte p n) < 256 ^ n := by
  have h := bigEndianValue_lt (slice b.byte p n)
  rwa [slice_length] at h

/-- Bytes are the spelling of the value they spell. -/
theorem holds_spelling (b : Buffer) (p n : Nat) :
    Holds b p (bigEndian n (bigEndianValue (slice b.byte p n))) := by
  have h := bigEndian_bigEndianValue (slice b.byte p n)
  rw [slice_length] at h
  rw [Holds, bigEndian_length, h]

/-- The integer at an offset is written as it was read. -/
theorem holds_fieldAt (b : Buffer) (p : Nat) (order : ByteOrder) :
    Holds b p (storeUInt64 order (htobe64 order (fieldAt b p))) := by
  have hlt : bigEndianValue (slice b.byte p 8) < 2 ^ 64 := slice_value_lt b p 8
  rw [storeUInt64_htobe64, fieldAt, UInt64.toNat_ofNat', Nat.mod_eq_of_lt hlt]
  exact holds_spelling b p 8

theorem holds_bytesAt (b : Buffer) (p n : Nat) : Holds b p (b.bytesAt p n).toList := by
  rw [Holds, List.Vector.toList_length]
  rfl

theorem toInt64_toUInt64 (x : Int64) : x.toUInt64.toInt64 = x := rfl

/-- An encoded transaction is read back. -/
theorem transactionAt_of_holds (b : Buffer) (o : Nat) (order : ByteOrder) (t : Transaction)
    (h : Holds b o (transactionBytes order t)) : transactionAt b o = t := by
  simp only [transactionBytes, holds_append, List.length_append, storeUInt64_length,
    SshKey.toList_length] at h
  rcases h with ⟨⟨⟨⟨⟨hcreated, hsender⟩, hrecipient⟩, hamount⟩, hlength⟩, hbytes⟩
  rw [transactionAt, fieldAt_of_holds b _ order _ hcreated, bytesAt_of_holds b _ _ _ hsender,
    bytesAt_of_holds b _ _ _ hrecipient, fieldAt_of_holds b _ order _ hamount,
    fieldAt_of_holds b _ order _ hlength, bytesAt_of_holds b _ _ _ hbytes, toInt64_toUInt64]

/-- An encoded block with a count that fits is read back. -/
theorem blockAt_of_holds (b : Buffer) (p : Nat) (order : ByteOrder) (x : Block)
    (hcount : x.transactionList.length < 2 ^ 64) (h : Holds b p (blockBytes order x)) :
    countAt b p = x.transactionList.length ∧ blockAt b p = x := by
  simp only [blockBytes, blockHeaderBytes, holds_append, List.length_append, storeUInt64_length,
    Sha256.toList_length] at h
  rcases h with ⟨⟨⟨⟨hcreated, hprevious⟩, hproof⟩, hnum⟩, htransactions⟩
  -- The count is stored in 64 bits, so it has to fit to be read back.
  have hn : countAt b p = x.transactionList.length := by
    rw [countAt, fieldAt_of_holds b _ order _ hnum, linkedListLength, UInt64.toNat_ofNat',
      Nat.mod_eq_of_lt hcount]
  refine ⟨hn, ?_⟩
  have hlist : (List.range (countAt b p)).map (fun j => transactionAt b (p + 56 + 8728 * j)) =
      x.transactionList := by
    -- The transactions lie one after the other, each as wide as the others.
    refine List.ext_getElem (by rw [List.length_map, List.length_range, hn]) ?_
    intro j h1 h2
    rw [List.getElem_map, List.getElem_range]
    exact transactionAt_of_holds b _ order _
      (holds_flatten b _ 8728 (transactionBytes_length order) _ _ htransactions j h2)
  rw [blockAt, hlist, fieldAt_of_holds b _ order _ hcreated,
    fieldAt_of_holds b _ order _ hproof, bytesAt_of_holds b _ _ _ hprevious, toInt64_toUInt64]

/-- A sequence of encoded blocks that begins at block `k` is read back block by
    block, and the layout goes on where the sequence ends. -/
theorem blocks_of_holds (b : Buffer) (order : ByteOrder) (blocks : List Block) (k : Nat)
    (hcount : ∀ x ∈ blocks, x.transactionList.length < 2 ^ 64)
    (h : Holds b (blockStart b k) (blocks.map (blockBytes order)).flatten) :
    (∀ i (hi : i < blocks.length), blockAt b (blockStart b (k + i)) = blocks[i]) ∧
      blockStart b (k + blocks.length) =
        blockStart b k + (blocks.map (blockBytes order)).flatten.length := by
  induction blocks generalizing k with
  | nil => exact ⟨fun i hi => absurd hi (Nat.not_lt_zero _), rfl⟩
  | cons x blocks ih =>
      rw [List.map_cons, List.flatten_cons, holds_append] at h
      rcases blockAt_of_holds b _ order x (hcount x List.mem_cons_self) h.1 with ⟨hn, hx⟩
      -- The count just read places the next block where the encoding of this one ends.
      have hnext : blockStart b (k + 1) = blockStart b k + (blockBytes order x).length := by
        rw [blockStart, hn, blockBytes_length, Nat.add_assoc]
      rw [← hnext] at h
      rcases ih (k + 1) (fun y hy => hcount y (List.mem_cons_of_mem x hy)) h.2 with ⟨hblocks, hend⟩
      refine ⟨?_, ?_⟩
      · intro i hi
        cases i with
        | zero => exact hx
        | succ i =>
            rw [List.getElem_cons_succ, ← hblocks i (Nat.lt_of_succ_lt_succ hi),
              Nat.add_assoc k 1 i, Nat.add_comm 1 i]
      · rw [List.length_cons, Nat.add_comm blocks.length 1, ← Nat.add_assoc, hend, hnext,
          List.map_cons, List.flatten_cons, List.length_append, Nat.add_assoc]

end LeoCoin
