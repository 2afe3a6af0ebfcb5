import LeoCoin.Core.LinkedList
import LeoCoin.Core.Transaction

/-!
# Block

Blocks and the digest that names them.

The digest is taken over the memory of the block in the byte order of the
host: the time, the proof of work and the previous digest, then the memory of
every transaction in turn. No length stands in front of the transactions. The
preimage still determines the block, because what precedes the transactions
has a fixed size and so has each transaction.

## Main definitions

* `blockCreate`, `blockCreateGenesisBlock`: New blocks.
* `blockPreimage`: The bytes fed to the digest.
* `blockHash`: The digest.
* `sampleGenesis`, `sampleSuccessor`: Blocks for evaluating definitions.

## Theorems

* `blockCreate_obtains`: A new block, if its memory is granted.
* `blockPreimage_length`: The preimage has no framing.
* `blockPreimage_inj`: The preimage determines the block.
-/

namespace LeoCoin

/-- A new block at the time `now`. -/
def blockCreate (alloc : Allocator) (call : Nat) (now : Int64)
    (transactionList : List Transaction) (proofOfWork : UInt64) (previousBlockHash : Sha256) :
    Except ReturnCode Block :=
  if alloc.grants call sizeofBlock then .ok
    { createdAt := now
      transactionList := transactionList
      proofOfWork := proofOfWork
      previousBlockHash := previousBlockHash }
  else .error .failureCouldNotMalloc

def blockCreateGenesisBlock (alloc : Allocator) (call : Nat) (now : Int64) :
    Except ReturnCode Block :=
  match linkedListCreate alloc call with
  | .error code => .error code
  | .ok transactionList =>
    blockCreate alloc (call + 1) now transactionList GENESIS_BLOCK_PROOF_OF_WORK
      (Bytes.zero SHA256_DIGEST_LENGTH)

/-- The bytes `block_hash` feeds to the digest. -/
def blockPreimage (host : Host) (b : Block) : List UInt8 :=
  storeUInt64 host.byteOrder b.createdAt.toUInt64 ++ storeUInt64 host.byteOrder b.proofOfWork ++
    b.previousBlockHash.toList ++ (b.transactionList.map (transactionMemory host)).flatten

/-- The digest of a block. Its only failures are null pointers. -/
def blockHash (host : Host) (b : Block) : Sha256 := host.ssl.sha256 (blockPreimage host b)

/-- A genesis block, a minting transaction and a block holding it, for
    evaluating definitions. -/
def sampleGenesis : Block where
  createdAt := 100
  transactionList := []
  proofOfWork := GENESIS_BLOCK_PROOF_OF_WORK
  previousBlockHash := Bytes.zero SHA256_DIGEST_LENGTH

def sampleMint : Transaction where
  createdAt := 200
  senderPublicKey := Bytes.zero MAX_SSH_KEY_LENGTH
  recipientPublicKey := Bytes.zero MAX_SSH_KEY_LENGTH
  amount := AMOUNT_GENERATED_DURING_MINTING
  senderSignature := { length := 256, bytes := Bytes.zero MAX_SSH_SIGNATURE_LENGTH }

def sampleSuccessor (previous : Block) : Block where
  createdAt := 300
  transactionList := [sampleMint]
  proofOfWork := 0
  previousBlockHash := blockHash sampleHost previous

theorem blockCreate_obtains (alloc : Allocator) (call : Nat) (now : Int64)
    (transactionList : List Transaction) (proofOfWork : UInt64) (previousBlockHash : Sha256) :
    alloc.Obtains sizeofBlock .failureCouldNotMalloc
      (blockCreate alloc call now transactionList proofOfWork previousBlockHash)
      { createdAt := now
        transactionList := transactionList
        proofOfWork := proofOfWork
        previousBlockHash := previousBlockHash } :=
  alloc.obtains_ite call _ _ _

theorem blockPreimage_length (host : Host) (b : Block) :
    (blockPreimage host b).length = 48 + sizeofTransaction * b.transactionList.length := by
  simp only [blockPreimage, List.length_append, storeUInt64_length, Sha256.toList_length,
    flatten_map_length _ _ (transactionMemory_length host)]

/-- The preimage determines the block. -/
theorem blockPreimage_inj (host : Host) (b c : Block)
    (h : blockPreimage host b = blockPreimage host c) : b = c := by
  unfold blockPreimage at h
  -- The part before the transactions has one length in every block.
  rcases List.append_inj h (by simp only [List.length_append, storeUInt64_length,
    Sha256.toList_length]) with ⟨h1, htransactions⟩
  rcases List.append_inj' h1 (by simp only [Sha256.toList_length]) with ⟨h2, hprevious⟩
  rcases List.append_inj' h2 (by simp only [storeUInt64_length]) with ⟨hcreated, hproof⟩
  rcases b with ⟨bc, bt, bp, bh⟩
  rcases c with ⟨cc, ct, cp, ch⟩
  have e1 := createdAt_toUInt64_inj _ _ (storeUInt64_inj _ _ _ hcreated)
  have e2 := storeUInt64_inj _ _ _ hproof
  have e3 := List.Vector.eq _ _ hprevious
  have e4 := flatten_map_inj (transactionMemory host) sizeofTransaction (by decide)
    (transactionMemory_length host) (transactionMemory_inj host) _ _ htransactions
  simp only at e1 e2 e3 e4
  rw [e1, e2, e3, e4]

end LeoCoin
