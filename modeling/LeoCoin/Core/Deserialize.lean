import LeoCoin.Core.Blockchain
import LeoCoin.Library.Decoder

/-!
# Deserialize

The decoder of a chain.

Every field is read behind a comparison of the cursor with the buffer size. An
integer is read as a 64-bit word and converted, an array byte by byte. The
number of blocks, and per block the number of transactions, come from the
buffer and drive the loops.

One comparison is not for the field that follows it. A signature length above
`MAX_SSH_KEY_LENGTH` is refused, and then the buffer has to hold as many more
bytes as the length says, but what is read is the signature array, whose size
is fixed.

A block is created at the current time, and then given the time that was read.

## Main definitions

* `readUInt64`, `readArray`: A field behind its comparison.
* `deserializeTransaction`, `deserializeBlock`: The bodies of the two loops.
* `blockchainDeserialize`: The decoder.
-/

namespace LeoCoin

open Decoder

def readUInt64 (order : ByteOrder) (buffer : Buffer) : Decoder ReturnCode UInt64 := do
  checkRead buffer 8 .failureBufferTooSmall
  let p ← readBytes buffer 8
  pure (betoh64 order (loadUInt64 order p))

def readArray (buffer : Buffer) (n : Nat) : Decoder ReturnCode (Bytes n) := do
  checkRead buffer n .failureBufferTooSmall
  readBytes buffer n

/-- One round of the loop over transactions, appending to the list. -/
def deserializeTransaction (order : ByteOrder) (alloc : Allocator) (buffer : Buffer)
    (transactionList : List Transaction) : Decoder ReturnCode (List Transaction) := do
  allocate alloc sizeofTransaction .failureCouldNotMalloc
  let createdAt ← readUInt64 order buffer
  let senderPublicKey ← readArray buffer MAX_SSH_KEY_LENGTH
  let recipientPublicKey ← readArray buffer MAX_SSH_KEY_LENGTH
  let amount ← readUInt64 order buffer
  let length ← readUInt64 order buffer
  if length.toNat > MAX_SSH_KEY_LENGTH then fail .failureSignatureTooLong
  else do
    -- Compared with the length read, and then read whole.
    checkRead buffer length.toNat .failureBufferTooSmall
    let bytes ← readBytes buffer MAX_SSH_SIGNATURE_LENGTH
    allocating 1 fun call => linkedListAppend alloc call transactionList
      { createdAt := createdAt.toInt64
        senderPublicKey := senderPublicKey
        recipientPublicKey := recipientPublicKey
        amount := amount
        senderSignature := { length := length, bytes := bytes } }

/-- One round of the loop over blocks, appending to the chain. -/
def deserializeBlock (order : ByteOrder) (alloc : Allocator) (now : Int64) (buffer : Buffer)
    (blockchain : Blockchain) : Decoder ReturnCode Blockchain := do
  -- The fields stand in another order here than in memory.
  let blockCreatedAt ← readUInt64 order buffer
  let previousBlockHash ← readArray buffer SHA256_DIGEST_LENGTH
  let proofOfWork ← readUInt64 order buffer
  let numTransactions ← readUInt64 order buffer
  let transactionList ← allocating 1 fun call => linkedListCreate alloc call
  let transactionList ←
    loop (deserializeTransaction order alloc buffer) numTransactions.toNat transactionList
  let block ← allocating 1 fun call =>
    blockCreate alloc call now transactionList proofOfWork previousBlockHash
  allocating 1 fun call =>
    blockchainAddBlock alloc call blockchain { block with createdAt := blockCreatedAt.toInt64 }

def blockchainDeserialize (order : ByteOrder) (alloc : Allocator) (now : Int64)
    (buffer : Buffer) : Decoder ReturnCode Blockchain := do
  let numLeadingZeroBytesRequiredInBlockHash ← readUInt64 order buffer
  let newBlockchain ← allocating 2 fun call =>
    blockchainCreate alloc call numLeadingZeroBytesRequiredInBlockHash
  let numBlocks ← readUInt64 order buffer
  loop (deserializeBlock order alloc now buffer) numBlocks.toNat newBlockchain

end LeoCoin
