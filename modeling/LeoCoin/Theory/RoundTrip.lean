import LeoCoin.Core.Verify
import LeoCoin.Theory.Decoding

/-!
# Round Trip

Decoding what the encoder wrote gives the chain back.

An encoded chain lies at the beginning of its buffer, so the layout reads it
back block by block, and ends where the buffer ends. It remains to see that
the decoder does not give up anywhere. It could only do so at a part that does
not fit, and every part of the encoding lies inside the buffer; or at a
signature length above the bound the decoder checks, and the lengths are below
the smaller bound of a signature array.

The decoded chain lies elsewhere in memory than the original. The digests of
its blocks do not depend on that. The verifier reads a signature up to its
stored length, so it does not look behind an array as long as the lengths fit.

## Main definitions

* `SignaturesFit`: Every stored signature length fits its array.

## Theorems

* `blockchainAt_of_holds`: An encoded chain is read back.
* `blockchainDeserialize_ok`: The decoder returns an encoded chain.
* `blockchainVerify_afterSignature`: Verifying looks behind no signature.
* `blockchainDeserialize_blockchainSerialize`: The round trip.
-/

namespace LeoCoin

/-- Every stored signature length is at most the size of a signature array. -/
def SignaturesFit (c : Blockchain) : Prop :=
  ∀ x ∈ c.blockList, ∀ t ∈ x.transactionList,
    t.senderSignature.length.toNat ≤ MAX_SSH_SIGNATURE_LENGTH

theorem holds_ofBytes (bs : List UInt8) (beyond : Nat → UInt8) :
    Holds (Buffer.ofBytes bs beyond) 0 bs := by
  have h := slice_extend [] bs [] beyond
  rwa [List.nil_append, List.append_nil] at h

/-- The transactions of one block are among those of all blocks. -/
theorem length_le_numTransactions (blocks : List Block) (x : Block) (h : x ∈ blocks) :
    x.transactionList.length ≤ numTransactions blocks :=
  List.le_sum_of_mem (List.mem_map_of_mem h)

/-- An encoded chain small enough to exist is read back, the layout ends where
    the encoding ends, and each count is what was encoded. -/
theorem blockchainAt_of_holds (b : Buffer) (order : ByteOrder) (c : Blockchain)
    (hsmall : (blockchainBytes order c).length ≤ PTRDIFF_MAX)
    (h : Holds b 0 (blockchainBytes order c)) :
    blockchainAt b = c ∧ blockStart b (numBlocksAt b) = (blockchainBytes order c).length := by
  have hlen := blockchainBytes_length order c
  rw [hlen, PTRDIFF_MAX] at hsmall
  have hlen' : (blockchainBytes order c).length =
      16 + (c.blockList.map (blockBytes order)).flatten.length := by
    rw [blockchainBytes, List.length_append, blockchainHeaderBytes_length]
  simp only [blockchainBytes, blockchainHeaderBytes, holds_append, List.length_append,
    storeUInt64_length, Nat.zero_add] at h
  rcases h with ⟨⟨hdifficulty, hnum⟩, hblocks⟩
  -- An encoding that exists is short enough for its counts to fit 64 bits.
  have hn : numBlocksAt b = c.blockList.length := by
    rw [numBlocksAt, fieldAt_of_holds b _ order _ hnum, linkedListLength, UInt64.toNat_ofNat',
      Nat.mod_eq_of_lt (by omega)]
  have hcount : ∀ x ∈ c.blockList, x.transactionList.length < 2 ^ 64 := fun x hx => by
    have hle := length_le_numTransactions c.blockList x hx
    omega
  rcases blocks_of_holds b order c.blockList 0 hcount hblocks with ⟨hread, hend⟩
  rw [Nat.zero_add] at hend
  refine ⟨?_, ?_⟩
  · have hlist : (List.range (numBlocksAt b)).map (fun k => blockAt b (blockStart b k)) =
        c.blockList := by
      -- The blocks lie where the counts read so far put them.
      refine List.ext_getElem (by rw [List.length_map, List.length_range, hn]) ?_
      intro k h1 h2
      rw [List.getElem_map, List.getElem_range, ← hread k h2, Nat.zero_add]
    rw [blockchainAt, hlist, fieldAt_of_holds b _ order _ hdifficulty]
  · rw [hn, hend, hlen', blockStart]

/-- A transaction of the layout is one of the chain the layout describes. -/
theorem transactionAt_mem (b : Buffer) (k j : Nat) (hk : k < numBlocksAt b)
    (hj : j < numTransactionsAt b k) :
    ∃ x ∈ (blockchainAt b).blockList, transactionAt b (transactionStart b k j) ∈
      x.transactionList := by
  refine ⟨blockAt b (blockStart b k), ?_, ?_⟩
  · simp only [blockchainAt, List.mem_map, List.mem_range]
    exact ⟨k, hk, rfl⟩
  · simp only [blockAt, transactionStart, List.mem_map, List.mem_range]
    exact ⟨j, hj, rfl⟩

/-- On a buffer that holds an encoded chain and no more, the decoder returns
    the chain, whatever the byte order of the encoding host. -/
theorem blockchainDeserialize_ok (order encoding : ByteOrder) (alloc : Allocator) (now : Int64)
    (b : Buffer) (c : Blockchain) (hsize : b.size = (blockchainBytes encoding c).length)
    (hsmall : b.size ≤ PTRDIFF_MAX) (hholds : Holds b 0 (blockchainBytes encoding c))
    (hsig : SignaturesFit c) (halloc : alloc.Grants sizeofTransaction) :
    (blockchainDeserialize order alloc now b .start).1 = .ok c := by
  rcases blockchainAt_of_holds b encoding c (hsize ▸ hsmall) hholds with ⟨hchain, hend⟩
  have hspec := wp_blockchainDeserialize order alloc now b
  rcases hrun : (blockchainDeserialize order alloc now b .start).1 with e | c'
  · exfalso
    have h16 : 16 ≤ b.size := by
      rw [hsize, blockchainBytes_length]
      omega
    rcases Decoder.wp_error hspec hrun with ⟨_, ⟨hlt, _⟩ | ⟨hg, _⟩⟩ | ⟨k, hk, _, _, _, hlt, _⟩ |
      ⟨k, j, hk, _, _, _, _, _, ⟨hj, hadm, _⟩ | ⟨hg, _⟩⟩
    · omega
    · exact hg halloc
    -- A block ends at or before the end of the layout, which is the size.
    · have hle := blockStart_mono b (show k + 1 ≤ numBlocksAt b from hk)
      rw [blockStart] at hle
      omega
    -- A transaction lies inside, and its stored length is below the bound checked.
    · have hle := transactionStart_lt_blockStart b hk hj
      rcases transactionAt_mem b k j hk hj with ⟨x, hx, ht⟩
      rw [hchain] at hx
      have hlen := hsig x hx _ ht
      rw [transactionAt_signatureLength, MAX_SSH_SIGNATURE_LENGTH] at hlen
      exact hadm ⟨Nat.le_trans hlen (by decide), by omega⟩
    · exact hg halloc
  · rw [(Decoder.wp_ok hspec hrun).1, hchain]

/-- A signature that fits its array is handed over without looking behind it. -/
theorem signatureArgument_eq (host : Host) (t : Transaction)
    (h : t.senderSignature.length.toNat ≤ MAX_SSH_SIGNATURE_LENGTH) :
    signatureArgument host t =
      t.senderSignature.bytes.toList.take t.senderSignature.length.toUInt32.toNat := by
  have hle : t.senderSignature.length.toUInt32.toNat ≤ t.senderSignature.length.toNat := by
    rw [UInt64.toNat_toUInt32]
    exact Nat.mod_le _ _
  rw [signatureArgument, slice_extend_inside _ _ _ _ (by
    rw [SshSignature.bytes_length, Nat.zero_add]
    exact Nat.le_trans hle h), List.drop_zero]

theorem transactionVerifySignature_afterSignature (host : Host)
    (heap : Transaction → Nat → UInt8) (t : Transaction)
    (h : t.senderSignature.length.toNat ≤ MAX_SSH_SIGNATURE_LENGTH) :
    transactionVerifySignature { host with afterSignature := heap } t =
      transactionVerifySignature host t := by
  have harg : signatureArgument { host with afterSignature := heap } t =
      signatureArgument host t := by rw [signatureArgument_eq _ t h, signatureArgument_eq _ t h]
  have hcovered : transactionPrefix { host with afterSignature := heap } t =
      transactionPrefix host t := rfl
  simp only [transactionVerifySignature, harg, hcovered]
  cases host.ssl.pemReadBioPubkey t.senderPublicKey with
  | none => rfl
  | some publicKey => rfl

theorem verifyTransactions_afterSignature (host : Host) (heap : Transaction → Nat → UInt8)
    (ts : List Transaction)
    (h : ∀ t ∈ ts, t.senderSignature.length.toNat ≤ MAX_SSH_SIGNATURE_LENGTH) :
    verifyTransactions { host with afterSignature := heap } ts = verifyTransactions host ts := by
  induction ts with
  | nil => rfl
  | cons t ts ih =>
      rw [verifyTransactions, verifyTransactions,
        transactionVerifySignature_afterSignature host heap t (h t List.mem_cons_self),
        ih fun u hu => h u (List.mem_cons_of_mem t hu)]

theorem verifyBlocks_afterSignature (host : Host) (heap : Transaction → Nat → UInt8)
    (d : UInt64) (idx : Nat) (previous : Sha256) (blocks : List Block)
    (h : ∀ x ∈ blocks, ∀ t ∈ x.transactionList,
      t.senderSignature.length.toNat ≤ MAX_SSH_SIGNATURE_LENGTH) :
    verifyBlocks { host with afterSignature := heap } d idx previous blocks =
      verifyBlocks host d idx previous blocks := by
  induction blocks generalizing idx previous with
  | nil => rfl
  | cons x blocks ih =>
      have hround : verifyBlock { host with afterSignature := heap } d idx previous x =
          verifyBlock host d idx previous x := by
        unfold verifyBlock
        rw [verifyTransactions_afterSignature host heap _ (h x List.mem_cons_self)]
        rfl
      rw [verifyBlocks, verifyBlocks, hround]
      rcases verifyBlock host d idx previous x with code | _ | verdict
      · rfl
      · exact ih (idx + 1) _ fun y hy => h y (List.mem_cons_of_mem x hy)
      · rfl

/-- Verifying a chain whose signatures fit looks behind no signature. -/
theorem blockchainVerify_afterSignature (host : Host) (heap : Transaction → Nat → UInt8)
    (c : Blockchain) (h : SignaturesFit c) :
    blockchainVerify { host with afterSignature := heap } c = blockchainVerify host c := by
  unfold blockchainVerify
  rcases hbs : c.blockList with _ | ⟨genesis, rest⟩
  · rfl
  · have hrest : ∀ x ∈ rest, ∀ t ∈ x.transactionList,
        t.senderSignature.length.toNat ≤ MAX_SSH_SIGNATURE_LENGTH := fun x hx =>
      h x (by rw [hbs]; exact List.mem_cons_of_mem genesis hx)
    simp only [verifyBlocks_afterSignature host heap _ _ _ rest hrest]
    rfl

/-- The round trip: with its memory granted the encoder returns a buffer of the
    expected size, and on that buffer, wherever it lies, the decoder returns
    the chain that was encoded. The digest of every block is the same before
    and after, and so is the verdict, whatever lies behind the decoded
    signatures. -/
theorem blockchainDeserialize_blockchainSerialize (host : Host) (encoder decoder : Allocator)
    (call : Nat) (now : Int64) (c : Blockchain) (beyond : Nat → UInt8)
    (heap : Transaction → Nat → UInt8) (hsig : SignaturesFit c)
    (hencoder : encoder.Grants
      (16 + 56 * c.blockList.length + 8728 * numTransactions c.blockList))
    (hdecoder : decoder.Grants sizeofTransaction) :
    ∃ buffer, blockchainSerialize host.byteOrder encoder call c = .ok buffer ∧
      buffer.size.toNat = buffer.bytes.length ∧
      buffer.bytes.length = 16 + 56 * c.blockList.length + 8728 * numTransactions c.blockList ∧
      ∃ c', (blockchainDeserialize host.byteOrder decoder now
          (Buffer.ofBytes buffer.bytes beyond) .start).1 = .ok c' ∧
        c' = c ∧ c'.blockList.map (blockHash host) = c.blockList.map (blockHash host) ∧
        blockchainVerify { host with afterSignature := heap } c' = blockchainVerify host c := by
  rw [← blockchainBytes_length host.byteOrder c] at hencoder ⊢
  rcases blockchainSerialize_ok host.byteOrder encoder call c hencoder with ⟨buffer, hser, hbytes⟩
  refine ⟨buffer, hser, buffer.bytes_length.symm, by rw [hbytes], c, ?_, rfl, rfl,
    blockchainVerify_afterSignature host heap c hsig⟩
  rw [hbytes]
  exact blockchainDeserialize_ok host.byteOrder host.byteOrder decoder now _ c rfl
    hencoder.le_max (holds_ofBytes _ beyond) hsig hdecoder

/-- The signatures of the sample chain fit. -/
theorem signaturesFit_sample (d : UInt64) :
    SignaturesFit ⟨[sampleGenesis, sampleSuccessor sampleGenesis], d⟩ := by
  intro x hx t ht
  rcases List.mem_pair.mp hx with rfl | rfl
  · exact absurd ht List.not_mem_nil
  · rw [List.mem_singleton.mp ht]
    decide

/-- The round trip of the sample chain, at a difficulty no digest meets. -/
theorem blockchainDeserialize_blockchainSerialize_sample :
    ∃ buffer, blockchainSerialize .little .generous 0
        ⟨[sampleGenesis, sampleSuccessor sampleGenesis], 1000⟩ = .ok buffer ∧
      buffer.size.toNat = buffer.bytes.length ∧ buffer.bytes.length = 8856 ∧
      ∃ c', (blockchainDeserialize .little .generous 0
          (Buffer.ofBytes buffer.bytes fun _ => 7) .start).1 = .ok c' ∧
        c' = ⟨[sampleGenesis, sampleSuccessor sampleGenesis], 1000⟩ ∧
        c'.blockList.map (blockHash sampleHost) =
          [sampleGenesis, sampleSuccessor sampleGenesis].map (blockHash sampleHost) ∧
        blockchainVerify { sampleHost with afterSignature := fun _ _ => 9 } c' =
          blockchainVerify sampleHost ⟨[sampleGenesis, sampleSuccessor sampleGenesis], 1000⟩ :=
  blockchainDeserialize_blockchainSerialize sampleHost .generous .generous 0 0
    ⟨[sampleGenesis, sampleSuccessor sampleGenesis], 1000⟩ (fun _ => 7) (fun _ _ => 9)
    (signaturesFit_sample 1000)
    (Allocator.generous_grants _ (by decide)) (Allocator.generous_grants _ (by decide))

end LeoCoin
