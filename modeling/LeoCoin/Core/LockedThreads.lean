import LeoCoin.Core.Threads

/-!
# Locked Threads

The two threads with the mutex of the published chain.

In `Threads` the decision of the server is one step, since it is made under the
lock. The lock does not keep everything out, though: the miner appends to its
chain and loads the version without it. So the server is taken apart here into
what it does with the shared variables from the lock to the unlock, and the miner
may take its steps in between, as long as they do not lock.

The miner locks the mutex to read the pointer and for nothing else, so a locked
read is still one step of it. It waits while the mutex is held. A mutex that
cannot be unlocked stays held.

## Main definitions

* `LockPoint`: Where the server is between lock and unlock.
* `LockedThreads`: The threads and the mutex.
* `MinerPoint.locks`, `lockedMinerStep`: A step of the miner.
* `insideStep`, `lockedServerStep`: A step of the server.
* `lockedStep`: A step of either.
-/

namespace LeoCoin

/-- Where the server is between lock and unlock: the chain that was published
    before, whether the server has switched, and whether the published chain
    could be encoded. -/
inductive LockPoint where
  | comparing
  | publishing (ourBlockchain : Nat)
  | counting (ourBlockchain : Nat)
  | releasing (ourBlockchain : Nat)
  | encoding (switchedToPeerChain : Bool)
  | unlocking (switchedToPeerChain encoded : Bool)
  deriving DecidableEq, Repr

/-- The threads and the mutex. The server is at `deciding` while it is
    inside. -/
structure LockedThreads where
  threads : Threads
  inside : Option LockPoint
  held : Bool

def LockedThreads.startup (blockchain : Blockchain) (version : UInt64) : LockedThreads where
  threads := .startup blockchain version
  inside := none
  held := false

/-- The miner is about to lock the mutex of the published chain. -/
def MinerPoint.locks : MinerPoint → Bool
  | .start | .reread _ | .lookUp _ _ => true
  | _ => false

def lockedMinerStep (host : Host) (args : MineBlocksArgs) (s : LockedThreads) (shouldStop : Bool)
    (m : MiningConditions) : Option LockedThreads :=
  if s.threads.miner.locks = true ∧ m.lock = 0 then
    if s.held then none
    else (minerStep host args s.threads shouldStop m).map fun threads =>
      { s with
        threads := threads
        held := m.unlock != 0 }
  -- No lock is held for the append and for the loads of the versions.
  else (minerStep host args s.threads shouldStop m).map fun threads =>
    { s with threads := threads }

/-- Where the server is after the unlock. -/
def unlockedPoint (r : Request) (peerBlockchain : Nat) (switchedToPeerChain encoded : Bool) :
    ServerPoint :=
  if encoded = true ∧ r.unlock = 0 ∧ switchedToPeerChain = false then .declined peerBlockchain
  else .idle

/-- What the server does between lock and unlock. -/
def insideStep (host : Host) (s : LockedThreads) (r : Request) (peerBlockchain : Nat)
    (peerBlockchainIsValid : Bool) : LockPoint → LockedThreads
  | .comparing =>
    -- The miner may append to this chain until the pointer is stored.
    let ourBlockchain := s.threads.syncBlockchain
    if switchesToPeerBlockchain (s.threads.heap ourBlockchain) (s.threads.heap peerBlockchain)
        peerBlockchainIsValid then
      { s with inside := some (.publishing ourBlockchain) }
    else { s with inside := some (.encoding false) }
  | .publishing ourBlockchain =>
    -- The version is still the one of the chain before.
    { s with
      threads := { s.threads with syncBlockchain := peerBlockchain }
      inside := some (.counting ourBlockchain) }
  | .counting ourBlockchain =>
    { s with
      threads := { s.threads with syncVersion := s.threads.syncVersion + 1 }
      inside := some (.releasing ourBlockchain) }
  | .releasing ourBlockchain =>
    { s with
      threads := { s.threads with destroyed := ourBlockchain :: s.threads.destroyed }
      inside := some (.encoding true) }
  | .encoding switchedToPeerChain =>
    let serialized := blockchainSerialize host.byteOrder (r.memory .encode) 0
      (s.threads.heap s.threads.syncBlockchain)
    -- Whether or not it fails, the mutex is unlocked.
    { s with inside := some (.unlocking switchedToPeerChain serialized.isOk) }
  | .unlocking switchedToPeerChain encoded =>
    -- A mutex that cannot be unlocked stays locked.
    { threads := { s.threads with
        server := unlockedPoint r peerBlockchain switchedToPeerChain encoded }
      inside := none
      held := r.unlock != 0 }

def lockedServerStep (host : Host) (s : LockedThreads) : Option LockedThreads :=
  match s.threads.server, s.inside with
  | .deciding r _ _, none =>
    if r.lock ≠ 0 then some { s with threads := { s.threads with server := .idle } }
    -- The server waits for the mutex.
    else if s.held then none
    else some { s with
      inside := some .comparing
      held := true }
  | .deciding r peerBlockchain peerBlockchainIsValid, some point =>
    some (insideStep host s r peerBlockchain peerBlockchainIsValid point)
  | _, _ => (serverStep host s.threads).map fun threads => { s with threads := threads }

def lockedStep (host : Host) (args : MineBlocksArgs) (s : LockedThreads) :
    ThreadAction → Option LockedThreads
  | .mine shouldStop m => lockedMinerStep host args s shouldStop m
  | .accept r => (serverAccept host s.threads r).map fun threads => { s with threads := threads }
  | .serve => lockedServerStep host s

end LeoCoin
