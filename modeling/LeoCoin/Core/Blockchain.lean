import LeoCoin.Core.Block

/-!
# Blockchain

The chain, the proof of work check and the two miners.

The two mining functions are one loop. They differ only in what ends it before
a nonce is tried: both stop on request, and the synchronized one also stops
when the published chain has been replaced. `mineLoop` therefore takes the
interruption as a parameter, and each miner is that loop at its own
interruption.

The flags and version numbers another thread may change are read once per
nonce. `Readings` is what those reads return, so any behaviour of the other
threads is some `Readings`.

Progress is printed from a state of its own, which the loop updates and never
looks at to decide anything.

## Main definitions

* `blockchainCreate`, `blockchainAddBlock`: Building a chain.
* `blockchainIsValidBlockHash`: The proof of work check of the miners.
* `Readings`: What the shared variables read, nonce by nonce.
* `Display`: What the progress printer keeps and prints.
* `mineLoop`: The nonce loop.
* `blockchainMineBlock`, `synchronizedBlockchainMineBlock`: The miners.

## Theorems

* `blockchainCreate_obtains`, `blockchainAddBlock_obtains`: What the functions
  return if memory is granted.
-/

namespace LeoCoin

def blockchainCreate (alloc : Allocator) (call : Nat)
    (numLeadingZeroBytesRequiredInBlockHash : UInt64) : Except ReturnCode Blockchain :=
  if ¬ alloc.grants call sizeofBlockchain then .error .failureCouldNotMalloc
  else match linkedListCreate alloc (call + 1) with
  | .error code => .error code
  | .ok blockList => .ok
      { blockList := blockList
        numLeadingZeroBytesRequiredInBlockHash := numLeadingZeroBytesRequiredInBlockHash }

def blockchainAddBlock (alloc : Allocator) (call : Nat) (blockchain : Blockchain) (block : Block) :
    Except ReturnCode Blockchain :=
  match linkedListAppend alloc call blockchain.blockList block with
  | .error code => .error code
  | .ok blockList => .ok { blockchain with blockList := blockList }

theorem blockchainCreate_obtains (alloc : Allocator) (call : Nat)
    (numLeadingZeroBytesRequiredInBlockHash : UInt64) :
    alloc.Obtains sizeofLinkedList .failureCouldNotMalloc
      (blockchainCreate alloc call numLeadingZeroBytesRequiredInBlockHash)
      ⟨[], numLeadingZeroBytesRequiredInBlockHash⟩ := by
  unfold blockchainCreate
  by_cases h : alloc.grants call sizeofBlockchain = true
  · rw [if_neg (not_not_intro h)]
    rcases (linkedListCreate_obtains alloc (call + 1) :
        alloc.Obtains _ _ _ ([] : List Block)) with hl | ⟨hl, hg⟩
    · exact Or.inl (by rw [hl])
    · exact Or.inr ⟨by rw [hl], hg⟩
  · exact Or.inr ⟨if_pos h, fun hg => h (hg call _ (by decide))⟩

theorem blockchainAddBlock_obtains (alloc : Allocator) (call : Nat) (blockchain : Blockchain)
    (block : Block) :
    alloc.Obtains sizeofNode .failureCouldNotMalloc
      (blockchainAddBlock alloc call blockchain block)
      { blockchain with blockList := blockchain.blockList ++ [block] } := by
  unfold blockchainAddBlock
  rcases linkedListAppend_obtains alloc call blockchain.blockList block with h | ⟨h, hg⟩
  · exact Or.inl (by rw [h])
  · exact Or.inr ⟨by rw [h], hg⟩

/-- The digest begins with as many zero bytes as the chain requires. The index
    runs to the required number, whatever the size of the digest. -/
def blockchainIsValidBlockHash (host : Host) (blockchain : Blockchain) (blockHash : Sha256) :
    Bool :=
  (List.range blockchain.numLeadingZeroBytesRequiredInBlockHash.toNat).all fun idx =>
    extend blockHash.toList host.afterHashArgument idx == 0

/-- What the shared variables read when a nonce is about to be tried. -/
structure Readings where
  shouldStop : UInt64 → Bool
  syncVersionCurrentlyMined : UInt64 → UInt64
  syncVersion : UInt64 → UInt64

/-- The printer's state: the most leading zeros seen, the last digest, and
    everything printed. -/
structure Display where
  bestLeadingZeroes : Nat
  hash : Sha256
  printed : List String

namespace Display

def start : Display where
  bestLeadingZeroes := 0
  hash := Bytes.zero SHA256_DIGEST_LENGTH
  printed := []

/-- The number of leading zero nybbles of a digest. -/
def numZeroes : List UInt8 → Nat
  | [] => 0
  | b :: bs => if b >>> 4 ≠ 0 then 0 else if b ≠ 0 then 1 else 2 + numZeroes bs

/-- A digest in hexadecimal, in a colour. -/
def colouredHash (color : String) (hash : Sha256) : String :=
  "\rMining LeoCoin block: " ++ color ++
    String.join (hash.toList.map fun (b : UInt8) =>
      String.ofList [Nat.digitChar (b >>> 4).toNat, Nat.digitChar (b &&& 0x0f).toNat]) ++
    "\x1b[0m\n"

/-- The line showing the best number of zeros and the rest of a digest. -/
def progressLine (best : Nat) (hash : Sha256) : String :=
  "\rMining LeoCoin block: " ++ String.ofList (List.replicate best '0') ++
    String.ofList ((List.range' best (2 * SHA256_DIGEST_LENGTH - best)).map fun idx =>
      let byte := hash.toList.getD (idx / 2) 0
      let nybble := if idx % 2 = 0 then byte >>> 4 else byte &&& 0x0f
      Nat.digitChar (if idx = best ∧ nybble = 0 then nybble + 1 else nybble).toNat)

/-- The progress shown for one nonce. -/
def showProgress (d : Display) (newProof : UInt64) (hash : Sha256) : Display :=
  let zeroes := numZeroes hash.toList
  let best := max d.bestLeadingZeroes zeroes
  let printThisIteration := newProof.toNat % 20000 = 0 ∨ zeroes > d.bestLeadingZeroes
  { bestLeadingZeroes := best
    hash := hash
    printed := if printThisIteration then d.printed ++ [progressLine best hash] else d.printed }

def print (d : Display) (text : String) : Display := { d with printed := d.printed ++ [text] }

end Display

/-- How a mining function ends. -/
structure MiningResult where
  returnCode : Except ReturnCode Unit
  block : Block
  display : Display

/-- Try the nonces from `newProof` on, as many as `remaining`. -/
def mineLoop (host : Host) (blockchain : Blockchain) (printProgress : Bool)
    (interrupted : UInt64 → Display → Option (ReturnCode × Display)) :
    (remaining : Nat) → (newProof : UInt64) → Block → Display → MiningResult
  | 0, _, block, d => ⟨.error .failureCouldNotFindValidProofOfWork, block, d⟩
  | remaining + 1, newProof, block, d =>
    match interrupted newProof d with
    | some (code, d') => ⟨.error code, block, d'⟩
    | none =>
      -- The block keeps the nonce it was tried with, accepted or not.
      let block' := { block with proofOfWork := newProof }
      let hash := blockHash host block'
      let d' := if printProgress then d.showProgress newProof hash else { d with hash := hash }
      if blockchainIsValidBlockHash host blockchain hash then
        ⟨.ok (), block',
          if printProgress then d'.print (Display.colouredHash "\x1b[32m" hash) else d'⟩
      else mineLoop host blockchain printProgress interrupted remaining (newProof + 1) block' d'

/-- The number of nonces the loops try, `UINT64_MAX`. -/
def numNonces : Nat := 2 ^ 64 - 1

def blockchainMineBlock (host : Host) (blockchain : Blockchain) (block : Block)
    (printProgress : Bool) (readings : Readings) : MiningResult :=
  mineLoop host blockchain printProgress
    (fun newProof d =>
      if readings.shouldStop newProof then some (.failureStoppedEarly, d) else none)
    numNonces 0 block Display.start

/-- `lock` and `unlock` are what the mutex functions return around the read of
    the published chain. -/
def synchronizedBlockchainMineBlock (host : Host) (sync : SynchronizedBlockchain)
    (lock unlock : Nat) (block : Block) (printProgress : Bool) (readings : Readings) :
    MiningResult :=
  if lock ≠ 0 then ⟨.error .failurePthreadFunction, block, Display.start⟩
  else if unlock ≠ 0 then ⟨.error .failurePthreadFunction, block, Display.start⟩
  else mineLoop host sync.blockchain printProgress
    (fun newProof d =>
      -- The request to stop is looked at before the version.
      if readings.shouldStop newProof then some (.failureStoppedEarly, d)
      -- The digest shown is that of the nonce before.
      else if readings.syncVersionCurrentlyMined newProof ≠ readings.syncVersion newProof then
        some (.failureLongerBlockchainDetected,
          if printProgress then d.print (Display.colouredHash "\x1b[94m" d.hash) else d)
      else none)
    numNonces 0 block Display.start

end LeoCoin
