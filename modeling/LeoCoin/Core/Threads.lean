import LeoCoin.Core.ConsensusPeerServer
import LeoCoin.Core.MiningThread
import Mathlib.Logic.Function.Basic

/-!
# Threads

The mining thread and the consensus server on one published chain, step by
step.

Chains are named by the number of their allocation, so two pointers are equal
exactly if the names are. What was destroyed is recorded and the machine goes
on, since whether a destroyed chain is used again is what is asked about it.

A step of the miner is what it does between two accesses to what the threads
share: an atomic load, an atomic store, a read of the published pointer under
the lock, the release of a chain, or a use of one. `MinerPoint` says where the
miner is and what its local variables hold there. Most of its steps change
nothing but that, and `minerAdvance` is those steps. The three that write what
the threads share are in `minerStep`.

The server's decision is one step, since it is made under the lock. Receiving,
verifying and the release of a chain that is declined are steps of their own.

The nonce loop prints its progress as in the sequential model and is not shown
here again. The saved file is not read by either thread.

## Main definitions

* `MinerPoint`, `ServerPoint`: Where the threads are.
* `Threads`, `Threads.startup`: What the threads share, and the two points.
* `minerAdvance`, `minerStep`: A step of the miner.
* `Threads.switches`, `Threads.switchTo`: The switch.
* `serverAccept`, `serverStep`: A step of the server.
* `threadStep`: A step of either.
* `Threads.reads`: The chains a step reads or appends to.
-/

namespace LeoCoin

/-- The search for a nonce: the miner's chain, the chain read when the search
    began, the block as last tried, and the next nonce. -/
structure Search where
  blockchain : Nat
  syncBlockchain : Nat
  block : Block
  newProof : UInt64

/-- Where the miner is, with its local variables. -/
inductive MinerPoint where
  | start
  | loopTest (blockchain : Nat) (returnCode : Except ReturnCode Unit)
  | loadMined (blockchain : Nat)
  | loadVersion (blockchain : Nat) (mined : UInt64)
  | reread (oldBlockchain : Nat)
  | destroyOld (oldBlockchain blockchain : Nat)
  | reloadVersion (blockchain : Nat)
  | storeMined (blockchain : Nat) (version : UInt64)
  | signal (blockchain : Nat)
  | verify (blockchain : Nat)
  | prepare (blockchain : Nat)
  | lookUp (blockchain : Nat) (nextBlock : Block)
  | nonceTest (search : Search)
  | nonceLoadMined (search : Search)
  | nonceLoadVersion (search : Search) (mined : UInt64)
  | tryNonce (search : Search)
  | append (blockchain : Nat) (nextBlock : Block)
  | report (blockchain : Nat)
  | finished (returnCode : Except ReturnCode Unit)

/-- Where the server is, with the request it handles and the peer's chain. -/
inductive ServerPoint where
  | idle
  | blocked
  | verifying (r : Request) (peerBlockchain : Nat)
  | deciding (r : Request) (peerBlockchain : Nat) (peerBlockchainIsValid : Bool)
  | declined (peerBlockchain : Nat)

/-- What the threads share, and where they are. -/
structure Threads where
  heap : Nat → Blockchain
  /-- The name the next chain gets. -/
  fresh : Nat
  syncBlockchain : Nat
  syncVersion : UInt64
  syncVersionCurrentlyMined : UInt64
  /-- What was destroyed, the latest first. -/
  destroyed : List Nat
  miner : MinerPoint
  server : ServerPoint

/-- Before the threads start: one chain, which is published, and the number the
    miner shares is the version. -/
def Threads.startup (blockchain : Blockchain) (version : UInt64) : Threads where
  heap _ := blockchain
  fresh := 1
  syncBlockchain := 0
  syncVersion := version
  syncVersionCurrentlyMined := version
  destroyed := []
  miner := .start
  server := .idle

/-- Read the published chain under the lock. -/
def lockedRead (m : MiningConditions) (s : Threads) (next : Nat → MinerPoint) : MinerPoint :=
  if m.lock ≠ 0 then .finished (.error .failurePthreadFunction)
  else if m.unlock ≠ 0 then .finished (.error .failurePthreadFunction)
  else next s.syncBlockchain

/-- The block with the next nonce in it. -/
def Search.nextBlock (search : Search) : Block :=
  { search.block with proofOfWork := search.newProof }

/-- Whether the next nonce is accepted. -/
def Search.accepts (host : Host) (search : Search) (blockchain : Blockchain) : Bool :=
  blockchainIsValidBlockHash host blockchain (blockHash host search.nextBlock)

/-- The miner's next point, for a step that writes nothing the threads share. -/
def minerAdvance (host : Host) (args : MineBlocksArgs) (s : Threads) (shouldStop : Bool)
    (m : MiningConditions) : MinerPoint → Option MinerPoint
  | .start => some (lockedRead m s fun blockchain => .loopTest blockchain (.ok ()))
  | .loopTest blockchain returnCode =>
    if shouldStop then some (.finished returnCode) else some (.loadMined blockchain)
  | .loadMined blockchain => some (.loadVersion blockchain s.syncVersionCurrentlyMined)
  | .loadVersion blockchain mined =>
    -- The two numbers are loaded one after the other.
    if mined ≠ s.syncVersion then some (.reread blockchain) else some (.verify blockchain)
  -- The pointer is read under the lock here, the version outside it later.
  | .reread oldBlockchain => some (lockedRead m s (.destroyOld oldBlockchain))
  -- The number loaded here need not belong to the chain read before.
  | .reloadVersion blockchain => some (.storeMined blockchain s.syncVersion)
  | .signal blockchain =>
    if m.lock ≠ 0 then some (.finished (.error .failurePthreadFunction))
    else if m.unlock ≠ 0 then some (.finished (.error .failurePthreadFunction))
    else some (.verify blockchain)
  | .verify blockchain =>
    match blockchainVerify host (s.heap blockchain) with
    | .error code => some (.finished (.error code))
    | .ok ⟨false, none⟩ => none
    | .ok ⟨false, some _⟩ => some (.finished (.error .failureInvalidBlockchain))
    | .ok ⟨true, _⟩ => some (.prepare blockchain)
  | .prepare blockchain =>
    match prepareNextBlock host args m (s.heap blockchain) with
    | .error code => some (.finished (.error code))
    | .ok nextBlock => some (.lookUp blockchain nextBlock)
  | .lookUp blockchain nextBlock =>
    some (lockedRead m s fun syncBlockchain =>
      .nonceTest ⟨blockchain, syncBlockchain, nextBlock, 0⟩)
  | .nonceTest search =>
    if search.newProof.toNat ≥ numNonces then
      some (.loopTest search.blockchain (.error .failureCouldNotFindValidProofOfWork))
    else if shouldStop then some (.loopTest search.blockchain (.ok ()))
    else some (.nonceLoadMined search)
  | .nonceLoadMined search => some (.nonceLoadVersion search s.syncVersionCurrentlyMined)
  | .nonceLoadVersion search mined =>
    if mined ≠ s.syncVersion then some (.loopTest search.blockchain (.ok ()))
    else some (.tryNonce search)
  | .tryNonce search =>
    -- The search looks the required zeros up in the chain read when it began, and
    -- the accepted block goes to the miner's own chain.
    if search.accepts host (s.heap search.syncBlockchain) then
      some (.append search.blockchain search.nextBlock)
    else some (.nonceTest { search with
      block := search.nextBlock
      newProof := search.newProof + 1 })
  | .report blockchain => some (.loopTest blockchain (.ok ()))
  | _ => none

def minerStep (host : Host) (args : MineBlocksArgs) (s : Threads) (shouldStop : Bool)
    (m : MiningConditions) : Option Threads :=
  match s.miner with
  | .destroyOld oldBlockchain blockchain =>
    some { s with
      destroyed := oldBlockchain :: s.destroyed
      miner := .reloadVersion blockchain }
  | .storeMined blockchain version =>
    some { s with
      syncVersionCurrentlyMined := version
      miner := .signal blockchain }
  | .append blockchain nextBlock =>
    -- No lock is held, and no version is checked between the nonce and here.
    match blockchainAddBlock m.alloc 4 (s.heap blockchain) nextBlock with
    | .error code => some { s with miner := .finished (.error code) }
    | .ok longer =>
      some { s with
        heap := Function.update s.heap blockchain longer
        miner := .report blockchain }
  | point => (minerAdvance host args s shouldStop m point).map fun next => { s with miner := next }

/-- Whether the server is about to publish the peer's chain. -/
def Threads.switches (s : Threads) : Bool :=
  match s.server with
  | .deciding r peerBlockchain peerBlockchainIsValid =>
    r.lock == 0 &&
      switchesToPeerBlockchain (s.heap s.syncBlockchain) (s.heap peerBlockchain)
        peerBlockchainIsValid
  | _ => false

/-- The switch: publish a chain, count the version up, and release the chain
    published before. -/
def Threads.switchTo (s : Threads) (peerBlockchain : Nat) : Threads :=
  { s with
    syncBlockchain := peerBlockchain
    syncVersion := s.syncVersion + 1
    destroyed := s.syncBlockchain :: s.destroyed }

/-- Receive a request and decode the chain in it. -/
def serverAccept (host : Host) (s : Threads) (r : Request) : Option Threads :=
  match s.server, receivePeerBlockchain host.byteOrder r with
  | .idle, some (.ok (_, peerBlockchain)) =>
    some { s with
      heap := Function.update s.heap s.fresh peerBlockchain
      fresh := s.fresh + 1
      server := .verifying r s.fresh }
  | .idle, some (.error (.failed _)) => some s
  | .idle, some (.error .blocked) => some { s with server := .blocked }
  | _, _ => none

/-- What the server does with a decoded chain. -/
def serverStep (host : Host) (s : Threads) : Option Threads :=
  match s.server with
  | .verifying r peerBlockchain =>
    match blockchainVerify host (s.heap peerBlockchain) with
    | .error _ => some { s with server := .idle }
    | .ok verdict =>
      some { s with server := .deciding r peerBlockchain verdict.isValidBlockchain }
  | .deciding r peerBlockchain _ =>
    -- Every exit before the release leaves the peer's chain allocated.
    if r.lock ≠ 0 then some { s with server := .idle }
    else
      let decided := if s.switches then s.switchTo peerBlockchain else s
      match blockchainSerialize host.byteOrder (r.memory .encode) 0
          (decided.heap decided.syncBlockchain) with
      | .error _ => some { decided with server := .idle }
      | .ok _ =>
        if r.unlock ≠ 0 ∨ s.switches then some { decided with server := .idle }
        else some { decided with server := .declined peerBlockchain }
  | .declined peerBlockchain =>
    some { s with
      destroyed := peerBlockchain :: s.destroyed
      server := .idle }
  | _ => none

/-- Which thread takes the next step, and what it meets. -/
inductive ThreadAction where
  | mine (shouldStop : Bool) (m : MiningConditions)
  | accept (r : Request)
  | serve

def threadStep (host : Host) (args : MineBlocksArgs) (s : Threads) :
    ThreadAction → Option Threads
  | .mine shouldStop m => minerStep host args s shouldStop m
  | .accept r => serverAccept host s r
  | .serve => serverStep host s

/-- The chains the miner's next step reads or appends to. -/
def MinerPoint.reads (args : MineBlocksArgs) : MinerPoint → List Nat
  | .verify blockchain | .prepare blockchain | .append blockchain _ => [blockchain]
  | .tryNonce search => [search.syncBlockchain]
  | .report blockchain =>
    if args.printProgress ∨ args.outfile.isSome then [blockchain] else []
  | _ => []

/-- The chains the server's next step reads. -/
def ServerPoint.reads (syncBlockchain : Nat) : ServerPoint → List Nat
  | .verifying _ peerBlockchain => [peerBlockchain]
  | .deciding r peerBlockchain _ =>
    if r.lock ≠ 0 then [peerBlockchain] else [peerBlockchain, syncBlockchain]
  | _ => []

/-- The chains a step reads or appends to. -/
def Threads.reads (args : MineBlocksArgs) (s : Threads) : ThreadAction → List Nat
  | .mine _ _ => s.miner.reads args
  | .accept _ => []
  | .serve => s.server.reads s.syncBlockchain

end LeoCoin
