import LeoCoin.Core.Blockchain

/-!
# Verify

The validity check of a chain.

The genesis block is checked first, then the loop over the remaining blocks
carries the digest of the block before. Each check that fails ends the loop
with a false verdict. A signature check that does not succeed ends it with an
error and no verdict.

A false verdict names the first invalid block, except one: the exit for a
block without transactions leaves the caller's pointer as it was. The verdict
says what was written, so that exit writes nothing.

The number of digest bytes compared with zero is the number the chain
requires, whatever the size of a digest.

## Main definitions

* `Verdict`: What the function writes through its pointers.
* `verifyTransactions`: The loop over the signatures of a block.
* `verifyBlock`: One round of the loop over blocks.
* `verifyBlocks`: The loop over the blocks after the genesis block.
* `blockchainVerify`: The check.
-/

namespace LeoCoin

/-- What a successful call writes: the verdict, and the position of the block
    stored in `first_invalid_block`, or `none` if it is left alone. -/
structure Verdict where
  isValidBlockchain : Bool
  firstInvalidBlock : Option Nat
  deriving DecidableEq, Repr

/-- Whether every transaction has a valid signature. -/
def verifyTransactions (host : Host) : List Transaction → Except ReturnCode Bool
  | [] => .ok true
  | transaction :: rest =>
    match transactionVerifySignature host transaction with
    | .error code => .error code
    | .ok isValidSignature =>
      if ¬ isValidSignature then .ok false else verifyTransactions host rest

/-- One round of the loop over blocks, given the digest of the block before: a
    verdict if the round ends the loop, `none` if the block passes. -/
def verifyBlock (host : Host) (numLeadingZeroBytesRequiredInBlockHash : UInt64) (idx : Nat)
    (previousBlockHash : Sha256) (currentBlock : Block) : Except ReturnCode (Option Verdict) :=
  let currentBlockHash := blockHash host currentBlock
  -- Proof of work, over as many bytes as are required.
  if memcmp (extend currentBlockHash.toList host.afterCurrentHash)
      (extend (Bytes.zero SHA256_DIGEST_LENGTH).toList host.afterEmptyHash)
      numLeadingZeroBytesRequiredInBlockHash.toNat ≠ 0 then
    .ok (some ⟨false, some idx⟩)
  -- The stored digest of the block before. The comparison stays inside both arrays.
  else if memcmp (extend currentBlock.previousBlockHash.toList fun _ => 0)
      (extend previousBlockHash.toList fun _ => 0) SHA256_DIGEST_LENGTH ≠ 0 then
    .ok (some ⟨false, some idx⟩)
  else match currentBlock.transactionList with
  -- The one exit that does not say which block is invalid.
  | [] => .ok (some ⟨false, none⟩)
  | mintingTransaction :: _ =>
    -- The first transaction mints, from the miner to the miner.
    if AMOUNT_GENERATED_DURING_MINTING ≠ mintingTransaction.amount ∨
        memcmp (extend mintingTransaction.senderPublicKey.toList fun _ => 0)
          (extend mintingTransaction.recipientPublicKey.toList fun _ => 0)
          MAX_SSH_KEY_LENGTH ≠ 0 then
      .ok (some ⟨false, some idx⟩)
    else match verifyTransactions host currentBlock.transactionList with
    | .error code => .error code
    | .ok false => .ok (some ⟨false, some idx⟩)
    | .ok true => .ok none

/-- The loop over the blocks from position `idx` on. -/
def verifyBlocks (host : Host) (numLeadingZeroBytesRequiredInBlockHash : UInt64) :
    (idx : Nat) → (previousBlockHash : Sha256) → List Block → Except ReturnCode Verdict
  | _, _, [] => .ok ⟨true, none⟩
  | idx, previousBlockHash, currentBlock :: rest =>
    match verifyBlock host numLeadingZeroBytesRequiredInBlockHash idx previousBlockHash
        currentBlock with
    | .error code => .error code
    | .ok (some verdict) => .ok verdict
    | .ok none =>
      verifyBlocks host numLeadingZeroBytesRequiredInBlockHash (idx + 1)
        (blockHash host currentBlock) rest

def blockchainVerify (host : Host) (blockchain : Blockchain) : Except ReturnCode Verdict :=
  match blockchain.blockList with
  | [] => .ok ⟨true, none⟩
  | genesisBlock :: rest =>
    if ¬ linkedListIsEmpty genesisBlock.transactionList ∨
        genesisBlock.proofOfWork ≠ GENESIS_BLOCK_PROOF_OF_WORK ∨
        memcmp (extend genesisBlock.previousBlockHash.toList fun _ => 0)
          (extend (Bytes.zero SHA256_DIGEST_LENGTH).toList host.afterEmptyHash)
          SHA256_DIGEST_LENGTH ≠ 0 then
      .ok ⟨false, some 0⟩
    else
      verifyBlocks host blockchain.numLeadingZeroBytesRequiredInBlockHash 1
        (blockHash host genesisBlock) rest

end LeoCoin
