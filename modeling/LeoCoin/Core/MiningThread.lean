import LeoCoin.Core.Verify

/-!
# Mining Thread

One iteration of the mining loop.

An iteration verifies the chain, builds a block on its last one with a single
minting transaction from the miner to the miner, searches a nonce for it, and
appends it. It is given the published chain here, which is what the miner works
on unless another thread replaces it meanwhile; the replacement is the subject
of a model of its own.

What the iteration meets is in `MiningConditions`: the allocations, the clock,
what the mutex functions return, and what the shared variables read while the
nonces are tried.

A false verdict makes the loop print the first invalid block through a pointer
that the verifier may have left null. The iteration has no outcome then.

## Main definitions

* `MineBlocksArgs`, `MiningConditions`: What an iteration is given and meets.
* `prepareNextBlock`: The block that is going to be mined.
* `mineBlocksIteration`: One iteration.
-/

namespace LeoCoin

structure MineBlocksArgs where
  minerPublicKey : SshKey
  minerPrivateKey : SshKey
  printProgress : Bool
  /-- The file the chain is saved to after every mined block, if any. -/
  outfile : Option String

structure MiningConditions where
  alloc : Allocator
  /-- The time at which the transaction is created. -/
  transactionTime : Int64
  /-- The time at which the block is created. -/
  blockTime : Int64
  /-- What `pthread_mutex_lock` returns to the nonce search. -/
  lock : Nat
  /-- What `pthread_mutex_unlock` returns to the nonce search. -/
  unlock : Nat
  readings : Readings

/-- How an iteration ends: the code of the step that ended it, and the
    published chain. -/
structure MiningOutcome where
  returnCode : Except ReturnCode Unit
  sync : SynchronizedBlockchain

/-- A block on top of the last one, minting for the miner, without a nonce. -/
def prepareNextBlock (host : Host) (args : MineBlocksArgs) (m : MiningConditions)
    (blockchain : Blockchain) : Except ReturnCode Block :=
  match linkedListGetLast blockchain.blockList with
  | .error code => .error code
  | .ok previousBlock =>
    let previousBlockHash := blockHash host previousBlock
    match linkedListCreate m.alloc 0 with
    | .error code => .error code
    | .ok transactionList =>
      match transactionCreate host m.alloc 1 m.transactionTime args.minerPublicKey
          args.minerPublicKey AMOUNT_GENERATED_DURING_MINTING args.minerPrivateKey with
      | .error code => .error code
      | .ok mintCoinTransaction =>
        match linkedListPrepend m.alloc 2 transactionList mintCoinTransaction with
        | .error code => .error code
        | .ok transactionList =>
          -- The nonce is zero until the search sets it.
          blockCreate m.alloc 3 m.blockTime transactionList 0 previousBlockHash

def mineBlocksIteration (host : Host) (args : MineBlocksArgs) (m : MiningConditions)
    (sync : SynchronizedBlockchain) : Option MiningOutcome :=
  match blockchainVerify host sync.blockchain with
  | .error code => some ⟨.error code, sync⟩
  -- The pointer to the first invalid block is null and is printed through.
  | .ok ⟨false, none⟩ => none
  | .ok ⟨false, some _⟩ => some ⟨.error .failureInvalidBlockchain, sync⟩
  | .ok ⟨true, _⟩ =>
    match prepareNextBlock host args m sync.blockchain with
    | .error code => some ⟨.error code, sync⟩
    | .ok nextBlock =>
      let result := synchronizedBlockchainMineBlock host sync m.lock m.unlock nextBlock
        args.printProgress m.readings
      match result.returnCode with
      -- A search that was stopped or found nothing leaves the chain as it was.
      | .error code => some ⟨.error code, sync⟩
      | .ok () =>
        match blockchainAddBlock m.alloc 4 sync.blockchain result.block with
        | .error code => some ⟨.error code, sync⟩
        | .ok blockchain => some ⟨.ok (), { sync with blockchain := blockchain }⟩

end LeoCoin
