import LeoCoin.Core.Outputs
import LeoCoin.Theory.RoundTrip

/-!
# Canonical Encodings

Encoding what was decoded gives the bytes back.

The round trip starts from a chain. This is the way back, and it starts from
memory of any content. Whatever lies at an offset, encoding the transaction the
layout sees there writes the same bytes again: the integers are reinterpreted
on the way in and out without loss, and a signature array is read and written
whole. The counts in the headers place the parts, and the encoder writes the
counts that were read, so the parts of the encoding lie where those of the
buffer do.

No size enters into this. A decoder that succeeds has read everything from the
first byte to its cursor, so its result encodes to what it has read, and if it
stayed inside the buffer then so does the encoding.

## Main definitions

* `Consumed`: What a buffer and a chain decoded from it have in common.

## Theorems

* `holds_consecutive`: Parts that lie one after the other.
* `holds_transactionAt`, `holds_blockAt`, `holds_blockchainAt`: The layout
  encodes to memory.
* `consumed_of_blockchainDeserialize`: What the decoder returns encodes to what
  it read.
* `blockchainDeserialize_canonical`: The bytes accepted are canonical.
-/

namespace LeoCoin

/-- Parts of memory that lie one after the other are their concatenation, and
    the next part begins where it ends. -/
theorem holds_consecutive (b : Buffer) (start : Nat → Nat) (part : Nat → List UInt8)
    (hstart : ∀ k, start (k + 1) = start k + (part k).length)
    (hpart : ∀ k, Holds b (start k) (part k)) (n : Nat) :
    Holds b (start 0) ((List.range n).map part).flatten ∧
      start n = start 0 + ((List.range n).map part).flatten.length := by
  induction n with
  | zero => exact ⟨rfl, rfl⟩
  | succ n ih =>
      rcases ih with ⟨hholds, hend⟩
      have hsplit : ((List.range (n + 1)).map part).flatten =
          ((List.range n).map part).flatten ++ part n := by
        rw [List.range_succ, List.map_append, List.flatten_append, List.map_singleton,
          List.flatten_singleton]
      rw [hsplit, holds_append, List.length_append, ← hend]
      refine ⟨⟨hholds, hpart n⟩, ?_⟩
      rw [hstart n, hend, Nat.add_assoc]

/-- The transaction at an offset encodes to the bytes there. -/
theorem holds_transactionAt (b : Buffer) (o : Nat) (order : ByteOrder) :
    Holds b o (transactionBytes order (transactionAt b o)) := by
  simp only [transactionBytes, transactionAt, holds_append, List.length_append,
    storeUInt64_length, SshKey.toList_length]
  exact ⟨⟨⟨⟨⟨holds_fieldAt b _ order, holds_bytesAt b _ _⟩, holds_bytesAt b _ _⟩,
    holds_fieldAt b _ order⟩, holds_fieldAt b _ order⟩, holds_bytesAt b _ _⟩

theorem blockAt_length (b : Buffer) (p : Nat) :
    (blockAt b p).transactionList.length = countAt b p := by
  rw [blockAt, List.length_map, List.length_range]

/-- The block at an offset encodes to the bytes there. -/
theorem holds_blockAt (b : Buffer) (p : Nat) (order : ByteOrder) :
    Holds b p (blockBytes order (blockAt b p)) := by
  -- The number of transactions that the encoder counts is the field it was read from.
  have hcount : UInt64.ofNat (linkedListLength (blockAt b p).transactionList) =
      fieldAt b (p + 48) := by
    rw [linkedListLength, blockAt_length, countAt, UInt64.ofNat_toNat]
  rw [blockBytes, holds_append, blockHeaderBytes_length, blockHeaderBytes, hcount]
  refine ⟨?_, ?_⟩
  · simp only [blockAt, holds_append, List.length_append, storeUInt64_length,
      Sha256.toList_length]
    exact ⟨⟨⟨holds_fieldAt b _ order, holds_bytesAt b _ _⟩, holds_fieldAt b _ order⟩,
      holds_fieldAt b _ order⟩
  · rw [blockAt, List.map_map]
    refine (holds_consecutive b (fun j => p + 56 + 8728 * j) _ ?_ ?_ (countAt b p)).1
    · intro j
      rw [Function.comp_apply, transactionBytes_length]
      omega
    · exact fun j => holds_transactionAt b _ order

/-- The chain the layout sees encodes to the bytes up to the end of the last
    block. -/
theorem holds_blockchainAt (b : Buffer) (order : ByteOrder) :
    Holds b 0 (blockchainBytes order (blockchainAt b)) ∧
      (blockchainBytes order (blockchainAt b)).length = blockStart b (numBlocksAt b) := by
  have hcount : UInt64.ofNat (linkedListLength (blockchainAt b).blockList) = fieldAt b 8 := by
    rw [linkedListLength, blockchainAt, List.length_map, List.length_range, numBlocksAt,
      UInt64.ofNat_toNat]
  rcases holds_consecutive b (blockStart b)
    (fun k => blockBytes order (blockAt b (blockStart b k)))
    (fun k => by rw [blockStart, blockBytes_length, blockAt_length, Nat.add_assoc])
    (fun k => holds_blockAt b _ order) (numBlocksAt b) with ⟨hblocks, hend⟩
  have hlist : ((blockchainAt b).blockList.map (blockBytes order)).flatten =
      ((List.range (numBlocksAt b)).map fun k =>
        blockBytes order (blockAt b (blockStart b k))).flatten := by
    rw [blockchainAt, List.map_map]
    rfl
  rw [blockchainBytes, hlist, holds_append, List.length_append, blockchainHeaderBytes_length, hend]
  refine ⟨⟨?_, hblocks⟩, rfl⟩
  rw [blockchainHeaderBytes, hcount, holds_append, storeUInt64_length]
  exact ⟨holds_fieldAt b 0 order, holds_fieldAt b 8 order⟩

/-- What a buffer and a chain decoded from it have in common, where `pos` bytes
    were read: they are the encoding of the chain, and the counts stored in the
    buffer are those of the chain. -/
structure Consumed (order : ByteOrder) (b : Buffer) (c : Blockchain) (pos : Nat) : Prop where
  bytes : slice b.byte 0 pos = blockchainBytes order c
  length : pos = 16 + 56 * c.blockList.length + 8728 * numTransactions c.blockList
  blocks : c.blockList.length = numBlocksAt b
  transactions : ∀ k (h : k < c.blockList.length),
    c.blockList[k].transactionList.length = numTransactionsAt b k

/-- What the decoder returns encodes to what it read. -/
theorem consumed_of_blockchainDeserialize (order : ByteOrder) (alloc : Allocator) (now : Int64)
    (b : Buffer) (c : Blockchain)
    (h : (blockchainDeserialize order alloc now b .start).1 = .ok c) :
    Consumed order b c (blockchainDeserialize order alloc now b .start).2.pos := by
  rcases Decoder.wp_ok (wp_blockchainDeserialize order alloc now b) h with ⟨hc, hpos, _⟩
  rcases holds_blockchainAt b order with ⟨hholds, hlength⟩
  rw [← hc] at hholds hlength
  have hblocks : c.blockList.length = numBlocksAt b := by
    rw [hc, blockchainAt, List.length_map, List.length_range]
  refine ⟨?_, ?_, hblocks, ?_⟩
  · rw [hpos, ← hlength]
    exact hholds
  · rw [hpos, ← hlength, blockchainBytes_length]
  · intro k hk
    have hget : c.blockList[k] = blockAt b (blockStart b k) := by
      simp only [hc, blockchainAt, List.getElem_map, List.getElem_range]
    rw [hget, blockAt_length, numTransactionsAt]

/-- The bytes accepted are canonical. If the decoder succeeds and stays inside
    the buffer, the encoder writes its result as exactly the bytes that were
    read, and succeeds if it is granted that much memory; they are as many as
    the counts say, and the buffer has them; the counts are those stored in the
    buffer; and any buffer that decodes to the same chain begins with the same
    bytes. A call that fails leaves the pointer it was given as it was. -/
theorem blockchainDeserialize_canonical (order : ByteOrder) (alloc : Allocator) (now : Int64)
    (b : Buffer) :
    (∀ c, (blockchainDeserialize order alloc now b .start).1 = .ok c →
      (∀ i ∈ (blockchainDeserialize order alloc now b .start).2.reads, i < b.size) →
      ∃ pos, pos = (blockchainDeserialize order alloc now b .start).2.pos ∧ pos ≤ b.size ∧
        (∀ encoder call buffer, blockchainSerialize order encoder call c = .ok buffer →
          buffer.bytes = slice b.byte 0 pos) ∧
        (∀ encoder call, encoder.Grants pos →
          ∃ buffer, blockchainSerialize order encoder call c = .ok buffer) ∧
        16 + 56 * c.blockList.length + 8728 * numTransactions c.blockList = pos ∧
        c.blockList.length = numBlocksAt b ∧
        (∀ k (h : k < c.blockList.length),
          c.blockList[k].transactionList.length = numTransactionsAt b k) ∧
        (∀ alloc' now' b', (blockchainDeserialize order alloc' now' b' .start).1 = .ok c →
          (blockchainDeserialize order alloc' now' b' .start).2.pos = pos ∧
            slice b'.byte 0 pos = slice b.byte 0 pos)) ∧
    (∀ output buffer, (callBlockchainDeserialize order alloc now output buffer).1 ≠ .ok () →
      (callBlockchainDeserialize order alloc now output buffer).2 = output) := by
  refine ⟨?_, fun output buffer h => callDecoder_error _ _ output buffer h⟩
  intro c hok hinside
  have hc := consumed_of_blockchainDeserialize order alloc now b c hok
  have hsize := (Cursor.forall_reads_lt_iff _ _).mp hinside
  generalize hp : (blockchainDeserialize order alloc now b .start).2.pos = pos at hc hsize
  refine ⟨pos, rfl, hsize, ?_, ?_, hc.length.symm, hc.blocks, hc.transactions, ?_⟩
  · intro encoder call buffer h
    rw [bytes_of_blockchainSerialize order encoder call c buffer h, hc.bytes]
  · intro encoder call hm
    rw [hc.length, ← blockchainBytes_length order c] at hm
    rcases blockchainSerialize_ok order encoder call c hm with ⟨buffer, h, _⟩
    exact ⟨buffer, h⟩
  · intro alloc' now' b' hok'
    have hc' := consumed_of_blockchainDeserialize order alloc' now' b' c hok'
    have hpos := hc'.length.trans hc.length.symm
    refine ⟨hpos, ?_⟩
    rw [hc.bytes, ← hc'.bytes, hpos]

/-- Decoding the encoded sample chain and encoding the result. -/
theorem blockchainDeserialize_canonical_sample :
    ∃ b : Buffer, (blockchainDeserialize .little .generous 0 b .start).1 =
        .ok ⟨[sampleGenesis, sampleSuccessor sampleGenesis], 1000⟩ ∧
      ∃ buffer, blockchainSerialize .little .generous 0
          ⟨[sampleGenesis, sampleSuccessor sampleGenesis], 1000⟩ = .ok buffer ∧
        buffer.bytes = slice b.byte 0 8856 := by
  have hok := blockchainDeserialize_ok .little .little .generous 0
    (Buffer.ofBytes (blockchainBytes .little
      ⟨[sampleGenesis, sampleSuccessor sampleGenesis], 1000⟩) fun _ => 7) _ rfl
    (by rw [Buffer.ofBytes, blockchainBytes_length]; decide) (holds_ofBytes _ _)
    (signaturesFit_sample 1000) (Allocator.generous_grants _ (by decide))
  have hpos := (consumed_of_blockchainDeserialize _ _ _ _ _ hok).length
  rcases (blockchainDeserialize_canonical .little .generous 0 _).1 _ hok
    ((Cursor.forall_reads_lt_iff _ _).mpr (by
      rw [hpos, Buffer.ofBytes, blockchainBytes_length])) with
    ⟨pos, hp, _, hbytes, hgranted, _⟩
  rcases hgranted .generous 0 (by
    rw [hp, hpos]
    exact Allocator.generous_grants _ (by decide)) with ⟨buffer, hser⟩
  refine ⟨_, hok, buffer, hser, ?_⟩
  rw [hbytes .generous 0 buffer hser, hp, hpos]
  rfl

end LeoCoin
