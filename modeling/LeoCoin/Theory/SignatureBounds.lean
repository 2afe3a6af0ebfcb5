import LeoCoin.Theory.RoundTrip

/-!
# Signature Bounds

Which decoded chains are safe to hand to the verifier.

The verifier is given a pointer to the signature array and the stored length,
and the decoder is the only place where that length is compared with anything.
It is compared with the size of a key, which is eight times the size of a
signature array. So the decoder returns chains with lengths in between, and
checking such a signature reads past its array.

A chain is returned exactly if every comparison made for a part of it is
passed and memory is granted, so the chains in question can be told from the
bytes of the buffer: they are those with a length field in the gap.

## Main definitions

* `SignatureSlicesInside`: Checking a signature stays inside its array.
* `SignatureLengthsApart`: No length field lies in the gap.
* `longSignature`: A buffer with a length field in the gap.

## Theorems

* `blockchainDeserialize_passed`: A buffer that passes is decoded.
* `mem_transactions_iff`: The transactions of the decoded chain.
* `signatureSlicesInside_iff`: Slices lie inside if the lengths fit.
* `blockchainDeserialize_signatures_iff`: The condition is exact.
-/

namespace LeoCoin

open Decoder

/-- The bytes handed to the verifier for each signature, as many as the stored
    length says, lie inside the signature array. -/
def SignatureSlicesInside (host : Host) (c : Blockchain) : Prop :=
  ∀ x ∈ c.blockList, ∀ t ∈ x.transactionList,
    t.senderSignature.length.toNat ≤ t.senderSignature.bytes.toList.length ∧
      (signatureArgument host t).length ≤ t.senderSignature.bytes.toList.length

/-- No length field the decoder gets to lies above the size of a signature
    array and up to the bound the decoder checks. -/
def SignatureLengthsApart (b : Buffer) : Prop :=
  ∀ k j, k < numBlocksAt b → j < numTransactionsAt b k →
    ¬ (MAX_SSH_SIGNATURE_LENGTH < signatureLengthAt b (transactionStart b k j) ∧
      signatureLengthAt b (transactionStart b k j) ≤ MAX_SSH_KEY_LENGTH)

/-- A buffer that passes every comparison is decoded if memory is granted. -/
theorem blockchainDeserialize_passed (order : ByteOrder) (alloc : Allocator) (now : Int64)
    (b : Buffer) (hpassed : Passed b (numBlocksAt b) 0)
    (halloc : alloc.Grants sizeofTransaction) :
    (blockchainDeserialize order alloc now b .start).1 = .ok (blockchainAt b) := by
  have hspec := wp_blockchainDeserialize order alloc now b
  rcases hrun : (blockchainDeserialize order alloc now b .start).1 with e | c
  · exfalso
    -- Whatever part the decoder gives up at is one that passes.
    rcases wp_error hspec hrun with ⟨_, ⟨hlt, _⟩ | ⟨hg, _⟩⟩ | ⟨k, hk, _, _, _, hlt, _⟩ |
      ⟨k, j, hk, _, _, _, _, _, ⟨hj, hadm, _⟩ | ⟨hg, _⟩⟩
    · have h16 := hpassed.header
      omega
    · exact hg halloc
    · have hle := hpassed.headers k hk
      omega
    · exact hadm (hpassed.blocks k j hk hj)
    · exact hg halloc
  · rw [(wp_ok hspec hrun).1]

/-- The transactions of the chain a layout describes are those at the offsets
    of the layout. -/
theorem mem_transactions_iff (b : Buffer) (p : Transaction → Prop) :
    (∀ x ∈ (blockchainAt b).blockList, ∀ t ∈ x.transactionList, p t) ↔
      ∀ k j, k < numBlocksAt b → j < numTransactionsAt b k →
        p (transactionAt b (transactionStart b k j)) := by
  constructor
  · intro h k j hk hj
    rcases transactionAt_mem b k j hk hj with ⟨x, hx, ht⟩
    exact h x hx _ ht
  · intro h x hx t ht
    rcases List.mem_map.mp hx with ⟨k, hk, rfl⟩
    rcases List.mem_map.mp ht with ⟨j, hj, rfl⟩
    exact h k j (List.mem_range.mp hk) (List.mem_range.mp hj)

theorem signatureArgument_length (host : Host) (t : Transaction) :
    (signatureArgument host t).length = t.senderSignature.length.toNat % 2 ^ 32 := by
  rw [signatureArgument, slice_length, UInt64.toNat_toUInt32]

/-- A slice of the stored length lies inside the array exactly if the length
    fits it. The truncation to an `unsigned int` only makes it shorter. -/
theorem signatureSlicesInside_iff (host : Host) (c : Blockchain) :
    SignatureSlicesInside host c ↔ SignaturesFit c := by
  unfold SignatureSlicesInside SignaturesFit
  constructor
  · intro h x hx t ht
    have hle := (h x hx t ht).1
    rw [SshSignature.bytes_length] at hle
    exact hle
  · intro h x hx t ht
    have hfit := h x hx t ht
    rw [MAX_SSH_SIGNATURE_LENGTH] at hfit
    rw [signatureArgument_length, SshSignature.bytes_length]
    exact ⟨hfit, Nat.le_trans (Nat.mod_le _ _) hfit⟩

/-- Every chain the decoder returns for a buffer has signature lengths that fit
    their arrays, and slices that lie inside them, exactly if the buffer fails
    a comparison or has no length field in the gap. -/
theorem blockchainDeserialize_signatures_iff (order : ByteOrder) (now : Int64) (b : Buffer) :
    (∀ alloc c, (blockchainDeserialize order alloc now b .start).1 = .ok c →
      SignaturesFit c ∧ ∀ host, SignatureSlicesInside host c) ↔
    (Passed b (numBlocksAt b) 0 → SignatureLengthsApart b) := by
  constructor
  -- Grant everything. The buffer is then decoded, and each of its lengths fits.
  · intro h hpassed k j hk hj hgap
    have hfit := (h .generous _ (blockchainDeserialize_passed order .generous now b hpassed
      (Allocator.generous_grants _ (by decide)))).1
    have hle := (mem_transactions_iff b _).mp hfit k j hk hj
    exact absurd hle (Nat.not_le.mpr hgap.1)
  · intro h alloc c hrun
    rcases wp_ok (wp_blockchainDeserialize order alloc now b) hrun with ⟨hc, _, hpassed⟩
    -- What was decoded passed the larger bound, and there is nothing in between.
    have hfit : SignaturesFit c := by
      rw [hc]
      refine (mem_transactions_iff b _).mpr ?_
      intro k j hk hj
      have hadm := hpassed.blocks k j hk hj
      by_contra hlong
      exact h hpassed k j hk hj ⟨Nat.not_le.mp hlong, hadm.1⟩
    exact ⟨hfit, fun host => (signatureSlicesInside_iff host c).mpr hfit⟩

/-- A chain of one block with one transaction, whose signature length is one
    more than the size of a signature array. -/
def longSignature : Buffer where
  byte i := if i = 15 ∨ i = 71 ∨ i = 8287 then 1 else if i = 8286 then 2 else 0
  size := 8801

/-- That buffer is decoded, and the length in the chain exceeds the array. -/
theorem longSignature_unfit :
    ¬ ∀ (order : ByteOrder) (alloc : Allocator) (now : Int64) (b : Buffer) (c : Blockchain),
      (blockchainDeserialize order alloc now b .start).1 = .ok c →
        SignaturesFit c ∧ ∀ host, SignatureSlicesInside host c := by
  intro h
  have hone : numBlocksAt longSignature = 1 := by decide
  have htransactions : numTransactionsAt longSignature 0 = 1 := by decide
  have hadm : Admitted longSignature (transactionStart longSignature 0 0) :=
    ⟨by decide, by decide⟩
  have hpassed : Passed longSignature (numBlocksAt longSignature) 0 := by
    rw [hone]
    refine Passed.block ?_ (by decide)
    rw [htransactions]
    exact (passed_zero longSignature (by decide)).transaction hadm
  have hfit := (h .little .generous 0 longSignature _ (blockchainDeserialize_passed _ _ _ _
    hpassed (Allocator.generous_grants _ (by decide)))).1
  have hle := (mem_transactions_iff longSignature _).mp hfit 0 0 (by decide) (by decide)
  exact absurd hle (by decide)

end LeoCoin
