import LeoCoin.Core.MiningThread

/-!
# Mine Blocks

The mining function from its call to its return.

A round of the loop begins with the request to stop. Without one, the miner
switches to the published chain if the versions differ, verifies its chain,
builds a block, searches a nonce for it and appends it. A search that was
stopped, found nothing or was overtaken leads back to the head of the loop; the
code of the second is kept, and returned if the loop then ends. Everything else
that fails jumps to the end of the function.

The announcement that the miner is about to exit stands behind the loop, and
the label that the jumps go to stands behind the announcement.

`MiningRound` is what a round meets: what the shared variables read, what the
mutex functions return, and what the calls it makes meet. The return code is
written to memory that is requested last and not checked, so without it the
function has no outcome, as it has none if it prints a block through a null
pointer.

The file the chain is saved to and the progress shown are not part of the
state, and the codes of the functions that write them are ignored.

## Main definitions

* `MiningRound`: What a round meets.
* `switchChain`, `searchAndAppend`: Parts of a round.
* `mineBlocksRound`: A round after the request to stop was read.
* `MinerState`, `mineBlocksStart`, `mineBlocksStep`: The function as steps.
-/

namespace LeoCoin

structure MiningRound where
  /-- What the request to stop reads at the head of the loop. -/
  shouldStop : Bool
  /-- The version numbers that are compared. -/
  syncVersionCurrentlyMined : UInt64
  syncVersion : UInt64
  /-- What the mutex functions return around the read of the published chain. -/
  switchLock : Nat
  switchUnlock : Nat
  /-- The chain that is published then. -/
  switchBlockchain : Blockchain
  /-- What the mutex functions return around the signal that the chain was
      switched. -/
  signalLock : Nat
  signalUnlock : Nat
  /-- What is published when the search for a nonce begins. -/
  sync : SynchronizedBlockchain
  conditions : MiningConditions

/-- Mine on the published chain if the versions differ. The old chain is not
    null, so destroying it succeeds. -/
def switchChain (round : MiningRound) (blockchain : Blockchain) : Except ReturnCode Blockchain :=
  if round.syncVersionCurrentlyMined ≠ round.syncVersion then
    if round.switchLock ≠ 0 then .error .failurePthreadFunction
    else if round.switchUnlock ≠ 0 then .error .failurePthreadFunction
    else if round.signalLock ≠ 0 then .error .failurePthreadFunction
    else if round.signalUnlock ≠ 0 then .error .failurePthreadFunction
    else .ok round.switchBlockchain
  else .ok blockchain

/-- The codes of a search that do not end the loop, with what the return code
    is set to. -/
def searchGoesOn : ReturnCode → Option (Except ReturnCode Unit)
  | .failureCouldNotFindValidProofOfWork => some (.error .failureCouldNotFindValidProofOfWork)
  | .failureLongerBlockchainDetected => some (.ok ())
  | .failureStoppedEarly => some (.ok ())
  | _ => none

/-- The search of a round for a nonce. -/
def MiningRound.search (host : Host) (args : MineBlocksArgs) (round : MiningRound)
    (nextBlock : Block) : MiningResult :=
  synchronizedBlockchainMineBlock host round.sync round.conditions.lock round.conditions.unlock
    nextBlock args.printProgress round.conditions.readings

/-- The search, and the append if it finds a nonce. -/
def searchAndAppend (host : Host) (args : MineBlocksArgs) (round : MiningRound)
    (blockchain : Blockchain) (nextBlock : Block) :
    Except ReturnCode (Blockchain × Except ReturnCode Unit) :=
  let result := round.search host args nextBlock
  match result.returnCode with
  | .error code =>
    match searchGoesOn code with
    | some returnCode => .ok (blockchain, returnCode)
    | none => .error code
  | .ok () =>
    match blockchainAddBlock round.conditions.alloc 4 blockchain result.block with
    | .error code => .error code
    | .ok blockchain => .ok (blockchain, .ok ())

/-- A round that was not asked to stop: the code it jumps to the end with, or
    the chain and the return code it goes back to the head of the loop with. -/
def mineBlocksRound (host : Host) (args : MineBlocksArgs) (round : MiningRound)
    (blockchain : Blockchain) :
    Option (Except ReturnCode (Blockchain × Except ReturnCode Unit)) :=
  match switchChain round blockchain with
  | .error code => some (.error code)
  | .ok blockchain =>
    match blockchainVerify host blockchain with
    | .error code => some (.error code)
    -- The pointer to the first invalid block is null and is printed through.
    | .ok ⟨false, none⟩ => none
    | .ok ⟨false, some _⟩ => some (.error .failureInvalidBlockchain)
    | .ok ⟨true, _⟩ =>
      match prepareNextBlock host args round.conditions blockchain with
      | .error code => some (.error code)
      | .ok nextBlock => some (searchAndAppend host args round blockchain nextBlock)

def sizeofReturnCode : Nat := 4

/-- How the function returns: its code, and whether it has set `exit_ready`,
    which is false when it is called, and signalled the condition variable. -/
structure MineBlocksResult where
  returnCode : Except ReturnCode Unit
  exitReady : Bool

/-- At the head of the loop with a chain and the return code, or returned. -/
inductive MinerState where
  | mining (blockchain : Blockchain) (returnCode : Except ReturnCode Unit)
  | returned (result : MineBlocksResult)

/-- The end of the function. -/
def mineBlocksEnd (alloc : Allocator) (result : MineBlocksResult) : Option MinerState :=
  -- The pointer is not checked before the code is written through it.
  if alloc.grants 5 sizeofReturnCode then some (.returned result) else none

/-- The function up to the loop, where `lock` and `unlock` are what the mutex
    functions return around the read of the published chain. -/
def mineBlocksStart (alloc : Allocator) (args : Option MineBlocksArgs) (lock unlock : Nat)
    (syncBlockchain : Blockchain) : Option MinerState :=
  match args with
  | none => mineBlocksEnd alloc ⟨.error .failureInvalidInput, false⟩
  | some _ =>
    if lock ≠ 0 then mineBlocksEnd alloc ⟨.error .failurePthreadFunction, false⟩
    else if unlock ≠ 0 then mineBlocksEnd alloc ⟨.error .failurePthreadFunction, false⟩
    else some (.mining syncBlockchain (.ok ()))

/-- From the head of the loop back to it, or to the end. Nothing follows a
    return. -/
def mineBlocksStep (host : Host) (args : MineBlocksArgs) (s : MinerState) (round : MiningRound) :
    Option MinerState :=
  match s with
  | .returned _ => none
  | .mining blockchain returnCode =>
    if round.shouldStop then
      -- What the mutex functions return around the announcement is ignored.
      mineBlocksEnd round.conditions.alloc ⟨returnCode, true⟩
    else match mineBlocksRound host args round blockchain with
    | none => none
    | some (.error code) => mineBlocksEnd round.conditions.alloc ⟨.error code, false⟩
    | some (.ok (blockchain, returnCode)) => some (.mining blockchain returnCode)

end LeoCoin
