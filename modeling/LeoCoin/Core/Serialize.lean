import LeoCoin.Core.Block

/-!
# Serialize

The encoder of a chain.

The output buffer grows as the encoder goes: sixteen bytes for the difficulty
and the number of blocks, then a `realloc` for every block header and one for
every transaction, each followed by writing exactly the bytes it added.
`SerializationBuffer` is the buffer between two such rounds. Its size is a
64-bit variable that nothing checks for overflow. It cannot overflow, because
the size before each round was granted by the allocator, and the structure
carries that fact next to the one that every byte of the buffer is written.

Integers are converted and stored as 64-bit words, the time of a block and of
a transaction included. Arrays are copied whole, so all of a signature array is
written, whatever its stored length.

## Main definitions

* `SerializationBuffer`: The output buffer between two rounds.
* `SerializationBuffer.Appends`: The outcome of rounds.
* `transactionBytes`, `blockHeaderBytes`, `blockchainHeaderBytes`: What one
  round writes.
* `blockchainSerialize`: The encoder.

## Theorems

* `append_appends`, `Appends.bind`, `foldlM_appends`: Rounds, rounds after
  rounds and loops of rounds append bytes.
* `Appends.bytes_eq`, `Appends.ok`: What rounds return that start with nothing.
* `blockchainSerialize_appends`: The encoder appends the encoding.
* `blockchainSerialize_ok`: It succeeds if its memory is granted.
* `bytes_of_blockchainSerialize`: What it returns is the encoding.
-/

namespace LeoCoin

/-- The serialization buffer between two rounds: the bytes written, the value
    of `size`, and the number of allocations so far. -/
structure SerializationBuffer where
  bytes : List UInt8
  size : UInt64
  calls : Nat
  bytes_length : bytes.length = size.toNat
  size_le : size.toNat ≤ PTRDIFF_MAX

namespace SerializationBuffer

/-- Nothing allocated yet. -/
def empty (calls : Nat) : SerializationBuffer where
  bytes := []
  size := 0
  calls := calls
  bytes_length := rfl
  size_le := Nat.zero_le _

/-- Adding less than the largest object to a granted size does not wrap. -/
theorem add_toNat (buffer : SerializationBuffer) (n : Nat) (hn : n ≤ PTRDIFF_MAX) :
    (buffer.size + UInt64.ofNat n).toNat = buffer.size.toNat + n := by
  have hsize := buffer.size_le
  unfold PTRDIFF_MAX at hn hsize
  rw [UInt64.toNat_add, UInt64.toNat_ofNat', Nat.mod_eq_of_lt (show n < 2 ^ 64 by omega),
    Nat.mod_eq_of_lt (by omega)]

/-- Enlarge the buffer by `n` bytes and write them. The first round of all is
    a `calloc`, every later one a `realloc`. -/
def append (alloc : Allocator) (buffer : SerializationBuffer) (n : Nat) (written : Bytes n)
    (hn : n ≤ PTRDIFF_MAX) : Except ReturnCode SerializationBuffer :=
  let size := buffer.size + UInt64.ofNat n
  if h : alloc.grants buffer.calls size.toNat = true then .ok
    { bytes := buffer.bytes ++ written.toList
      size := size
      calls := buffer.calls + 1
      bytes_length := by
        rw [buffer.add_toNat n hn, List.length_append, buffer.bytes_length,
          List.Vector.toList_length]
      size_le := alloc.bounded _ _ h }
  else .error .failureCouldNotMalloc

/-- The outcome of rounds that append the given bytes: they are appended, or
    memory was refused that the longer buffer needs. -/
def Appends (alloc : Allocator) (buffer : SerializationBuffer) (bs : List UInt8)
    (result : Except ReturnCode SerializationBuffer) : Prop :=
  (∃ buffer', result = .ok buffer' ∧ buffer'.bytes = buffer.bytes ++ bs) ∨
    (result = .error .failureCouldNotMalloc ∧
      ¬ alloc.Grants (buffer.bytes.length + bs.length))

theorem append_appends (alloc : Allocator) (buffer : SerializationBuffer) (n : Nat)
    (written : Bytes n) (hn : n ≤ PTRDIFF_MAX) :
    Appends alloc buffer written.toList (buffer.append alloc n written hn) := by
  unfold append
  by_cases h : alloc.grants buffer.calls (buffer.size + UInt64.ofNat n).toNat = true
  · rw [dif_pos h]
    exact Or.inl ⟨_, rfl, rfl⟩
  · rw [dif_neg h]
    -- The size requested is that of the longer buffer, as the sum does not wrap.
    refine Or.inr ⟨rfl, fun hg => h (hg _ _ ?_)⟩
    rw [buffer.add_toNat n hn, buffer.bytes_length, List.Vector.toList_length]

/-- Rounds after rounds append the bytes of both. -/
theorem Appends.bind {alloc : Allocator} {buffer : SerializationBuffer} {xs ys : List UInt8}
    {result : Except ReturnCode SerializationBuffer}
    {next : SerializationBuffer → Except ReturnCode SerializationBuffer}
    (h : Appends alloc buffer xs result) (hnext : ∀ b, Appends alloc b ys (next b)) :
    Appends alloc buffer (xs ++ ys) (result >>= next) := by
  rcases h with ⟨b1, rfl, hb1⟩ | ⟨rfl, hg⟩
  · rcases hnext b1 with ⟨b2, h2, hb2⟩ | ⟨h2, hg⟩
    · exact Or.inl ⟨b2, h2, by rw [hb2, hb1, List.append_assoc]⟩
    -- The second part is refused what the whole buffer needs.
    · refine Or.inr ⟨h2, fun hm => hg ?_⟩
      rwa [hb1, List.length_append, Nat.add_assoc, ← List.length_append]
  · -- Memory refused early is memory the whole buffer needs.
    refine Or.inr ⟨rfl, fun hm => hg (hm.mono ?_)⟩
    rw [List.length_append]
    omega

/-- A loop of rounds appends what all of them append. -/
theorem foldlM_appends {α : Type} {alloc : Allocator} {encode : α → List UInt8}
    {step : SerializationBuffer → α → Except ReturnCode SerializationBuffer}
    (hstep : ∀ buffer x, Appends alloc buffer (encode x) (step buffer x))
    (xs : List α) (buffer : SerializationBuffer) :
    Appends alloc buffer (xs.map encode).flatten (xs.foldlM step buffer) := by
  induction xs generalizing buffer with
  | nil => exact Or.inl ⟨buffer, rfl, (List.append_nil _).symm⟩
  | cons x xs ih =>
      rw [List.foldlM_cons, List.map_cons, List.flatten_cons]
      exact (hstep buffer x).bind ih

/-- What rounds return that start with nothing is what they appended. -/
theorem Appends.bytes_eq {alloc : Allocator} {call : Nat} {bs : List UInt8}
    {result : Except ReturnCode SerializationBuffer} {buffer : SerializationBuffer}
    (h : Appends alloc (.empty call) bs result) (hok : result = .ok buffer) :
    buffer.bytes = bs := by
  rcases h with ⟨buffer', h', hbytes⟩ | ⟨h', _⟩
  · rw [hok, Except.ok.injEq] at h'
    rw [h']
    exact hbytes
  · rw [hok] at h'
    exact absurd h' (by simp only [reduceCtorEq, not_false_eq_true])

/-- Rounds that start with nothing succeed if their memory is granted. -/
theorem Appends.ok {alloc : Allocator} {call : Nat} {bs : List UInt8}
    {result : Except ReturnCode SerializationBuffer} (h : Appends alloc (.empty call) bs result)
    (hm : alloc.Grants bs.length) : ∃ buffer, result = .ok buffer ∧ buffer.bytes = bs := by
  rcases h with h | ⟨_, hg⟩
  · exact h
  · refine absurd hm fun h => hg ?_
    rwa [show (SerializationBuffer.empty call).bytes.length = 0 from rfl, Nat.zero_add]

end SerializationBuffer

open SerializationBuffer

/-- What the encoder writes for a transaction. -/
def transactionBytes (order : ByteOrder) (t : Transaction) : List UInt8 :=
  storeUInt64 order (htobe64 order t.createdAt.toUInt64) ++ t.senderPublicKey.toList ++
    t.recipientPublicKey.toList ++ storeUInt64 order (htobe64 order t.amount) ++
    storeUInt64 order (htobe64 order t.senderSignature.length) ++ t.senderSignature.bytes.toList

/-- What the encoder writes for a block before its transactions. -/
def blockHeaderBytes (order : ByteOrder) (b : Block) : List UInt8 :=
  storeUInt64 order (htobe64 order b.createdAt.toUInt64) ++ b.previousBlockHash.toList ++
    storeUInt64 order (htobe64 order b.proofOfWork) ++
    storeUInt64 order (htobe64 order (UInt64.ofNat (linkedListLength b.transactionList)))

/-- What the encoder writes before the blocks. -/
def blockchainHeaderBytes (order : ByteOrder) (c : Blockchain) : List UInt8 :=
  storeUInt64 order (htobe64 order c.numLeadingZeroBytesRequiredInBlockHash) ++
    storeUInt64 order (htobe64 order (UInt64.ofNat (linkedListLength c.blockList)))

@[simp]
theorem transactionBytes_length (order : ByteOrder) (t : Transaction) :
    (transactionBytes order t).length = 8728 := by
  simp only [transactionBytes, List.length_append, storeUInt64_length, SshKey.toList_length,
    SshSignature.bytes_length]

@[simp]
theorem blockHeaderBytes_length (order : ByteOrder) (b : Block) :
    (blockHeaderBytes order b).length = 56 := by
  simp only [blockHeaderBytes, List.length_append, storeUInt64_length, Sha256.toList_length]

@[simp]
theorem blockchainHeaderBytes_length (order : ByteOrder) (c : Blockchain) :
    (blockchainHeaderBytes order c).length = 16 := by
  simp only [blockchainHeaderBytes, List.length_append, storeUInt64_length]

def serializeTransaction (order : ByteOrder) (alloc : Allocator) (buffer : SerializationBuffer)
    (t : Transaction) : Except ReturnCode SerializationBuffer :=
  buffer.append alloc 8728 ⟨transactionBytes order t, transactionBytes_length order t⟩
    (by decide)

def serializeBlock (order : ByteOrder) (alloc : Allocator) (buffer : SerializationBuffer)
    (b : Block) : Except ReturnCode SerializationBuffer := do
  let buffer ← buffer.append alloc 56
    ⟨blockHeaderBytes order b, blockHeaderBytes_length order b⟩ (by decide)
  b.transactionList.foldlM (serializeTransaction order alloc) buffer

/-- The caller's pointers are given the bytes and the size of the result. -/
def blockchainSerialize (order : ByteOrder) (alloc : Allocator) (call : Nat) (c : Blockchain) :
    Except ReturnCode SerializationBuffer := do
  let buffer ← (SerializationBuffer.empty call).append alloc 16
    ⟨blockchainHeaderBytes order c, blockchainHeaderBytes_length order c⟩ (by decide)
  c.blockList.foldlM (serializeBlock order alloc) buffer

/-- The encoding of a block: its header, then its transactions. -/
def blockBytes (order : ByteOrder) (b : Block) : List UInt8 :=
  blockHeaderBytes order b ++ (b.transactionList.map (transactionBytes order)).flatten

/-- The encoding of a chain: its header, then its blocks. -/
def blockchainBytes (order : ByteOrder) (c : Blockchain) : List UInt8 :=
  blockchainHeaderBytes order c ++ (c.blockList.map (blockBytes order)).flatten

/-- The number of transactions of all blocks together. -/
def numTransactions (blocks : List Block) : Nat :=
  (blocks.map fun b => b.transactionList.length).sum

theorem blockBytes_length (order : ByteOrder) (b : Block) :
    (blockBytes order b).length = 56 + 8728 * b.transactionList.length := by
  rw [blockBytes, List.length_append, blockHeaderBytes_length,
    flatten_map_length _ _ (transactionBytes_length order)]

theorem blocksBytes_length (order : ByteOrder) (blocks : List Block) :
    (blocks.map (blockBytes order)).flatten.length =
      56 * blocks.length + 8728 * numTransactions blocks := by
  induction blocks with
  | nil => rfl
  | cons b blocks ih =>
      rw [List.map_cons, List.flatten_cons, List.length_append, ih, blockBytes_length,
        numTransactions, numTransactions, List.map_cons, List.sum_cons, List.length_cons]
      omega

theorem blockchainBytes_length (order : ByteOrder) (c : Blockchain) :
    (blockchainBytes order c).length =
      16 + 56 * c.blockList.length + 8728 * numTransactions c.blockList := by
  rw [blockchainBytes, List.length_append, blockchainHeaderBytes_length, blocksBytes_length]
  omega

theorem serializeTransaction_appends (order : ByteOrder) (alloc : Allocator)
    (buffer : SerializationBuffer) (t : Transaction) :
    Appends alloc buffer (transactionBytes order t) (serializeTransaction order alloc buffer t) :=
  append_appends alloc buffer 8728 _ _

theorem serializeBlock_appends (order : ByteOrder) (alloc : Allocator)
    (buffer : SerializationBuffer) (b : Block) :
    Appends alloc buffer (blockBytes order b) (serializeBlock order alloc buffer b) :=
  (append_appends alloc buffer 56 _ _).bind
    fun b' => foldlM_appends (serializeTransaction_appends order alloc) b.transactionList b'

/-- The encoder returns the encoding of the chain, unless memory is refused
    that the encoding needs. -/
theorem blockchainSerialize_appends (order : ByteOrder) (alloc : Allocator) (call : Nat)
    (c : Blockchain) :
    Appends alloc (.empty call) (blockchainBytes order c)
      (blockchainSerialize order alloc call c) :=
  (append_appends alloc (.empty call) 16 _ _).bind
    fun b' => foldlM_appends (serializeBlock_appends order alloc) c.blockList b'

/-- With its allocations granted the encoder succeeds. -/
theorem blockchainSerialize_ok (order : ByteOrder) (alloc : Allocator) (call : Nat)
    (c : Blockchain) (hm : alloc.Grants (blockchainBytes order c).length) :
    ∃ buffer, blockchainSerialize order alloc call c = .ok buffer ∧
      buffer.bytes = blockchainBytes order c :=
  (blockchainSerialize_appends order alloc call c).ok hm

/-- Whatever the encoder returns is the encoding of the chain. -/
theorem bytes_of_blockchainSerialize (order : ByteOrder) (alloc : Allocator) (call : Nat)
    (c : Blockchain) (buffer : SerializationBuffer)
    (h : blockchainSerialize order alloc call c = .ok buffer) :
    buffer.bytes = blockchainBytes order c :=
  (blockchainSerialize_appends order alloc call c).bytes_eq h

end LeoCoin
