import LeoCoin.Core.Receive
import LeoCoin.Core.Serialize
import LeoCoin.Core.Verify

/-!
# Consensus Peer Server

The handler of one consensus request.

A request is everything the handler meets while it runs: what the socket
delivers and takes, which allocations are granted at each stage, what the mutex
functions return, and the memory behind the buffers it decodes from. The
handler is then a function of the published chain and the request.

Two things can go wrong that C does not define: the reallocation for the
payload can fail, which nothing checks, and the announced length can make its
size wrap. The handler has no outcome then. A call of `recv` or `send` that
does not return leaves the handler blocked.

The handler runs in three parts. `receivePeerBlockchain` is everything before
the verification, with `decodePeerBlockchain` as its last stage.
`considerPeerBlockchain` is the decision under the lock. The reply that follows
sends the chain published at that time, in the command the request arrived in.

## Main definitions

* `Request`: What the handler meets.
* `Handled`: How the handler ends.
* `decodePeerBlockchain`, `receivePeerBlockchain`: Receiving and decoding.
* `switchesToPeerBlockchain`, `considerPeerBlockchain`: The switch.
* `replyWithBlockchain`: The reply.
* `handleOneConsensusRequest`: The handler.
-/

namespace LeoCoin

/-- The stages of the handler that allocate memory. -/
inductive Stage where
  | receive
  | frame
  | decode
  | encode
  | reply
  deriving DecidableEq, Repr

structure Request where
  arrivals : List Arrival
  acceptances : List Acceptance
  memory : Stage → Allocator
  /-- The heap behind the buffer a stage decodes from. -/
  heap : Stage → Nat → UInt8
  /-- The time at which the blocks are decoded. -/
  now : Int64
  /-- What `pthread_mutex_lock` returns. -/
  lock : Nat
  /-- What `pthread_mutex_unlock` returns. -/
  unlock : Nat

structure Handled where
  ending : Except Interruption Unit
  sync : SynchronizedBlockchain
  sent : List UInt8
  printed : List String

/-- Decode a received command and the chain in it. -/
def decodePeerBlockchain (order : ByteOrder) (r : Request) (recvBuf : List UInt8) :
    Except Interruption (CommandSendBlockchain × Blockchain) :=
  match (commandSendBlockchainDeserialize order (r.memory .frame)
      (.ofBytes recvBuf (r.heap .frame)) .start).1 with
  | .error code => .error (.failed code)
  | .ok command =>
    match (blockchainDeserialize order (r.memory .decode) r.now
        (.ofBytes command.blockchainData (r.heap .decode)) .start).1 with
    | .error code => .error (.failed code)
    | .ok peerBlockchain => .ok (command, peerBlockchain)

/-- Receive a command and decode the chain in it: the command and the chain, or
    how the handler ends without them. -/
def receivePeerBlockchain (order : ByteOrder) (r : Request) :
    Option (Except Interruption (CommandSendBlockchain × Blockchain)) :=
  if ¬ (r.memory .receive).grants 0 sizeofCommandHeader then
    some (.error (.failed .failureCouldNotMalloc))
  else match recvAll sizeofCommandHeader r.arrivals with
  | none => some (.error .blocked)
  -- Whatever the loop returned, the handler returns its own code.
  | some (.error _, _) => some (.error (.failed .failureNetworkFunction))
  | some (.ok header, arrivals) =>
    match (commandHeaderDeserialize order (.ofBytes header (r.heap .receive)) .start).1 with
    | .error code => some (.error (.failed code))
    | .ok commandHeader =>
      if commandHeader.command ≠ COMMAND_SEND_BLOCKCHAIN then
        some (.error (.failed .failureInvalidCommand))
      else
        let size := 16 + commandHeader.commandLen
        -- The result of `realloc` is used whatever it is.
        if size < commandHeader.commandLen ∨ ¬ (r.memory .receive).grants 1 size.toNat then none
        else match recvAll commandHeader.commandLen.toNat arrivals with
        | none => some (.error .blocked)
        | some (.error _, _) => some (.error (.failed .failureNetworkFunction))
        | some (.ok payload, _) => some (decodePeerBlockchain order r (header ++ payload))

/-- Whether the peer's chain is going to be published: it is valid, longer than
    the published one and of the same difficulty. -/
def switchesToPeerBlockchain (ourBlockchain peerBlockchain : Blockchain)
    (peerBlockchainIsValid : Bool) : Bool :=
  let sameNumberLeadingZeros := ourBlockchain.numLeadingZeroBytesRequiredInBlockHash ==
    peerBlockchain.numLeadingZeroBytesRequiredInBlockHash
  peerBlockchainIsValid &&
    (linkedListLength peerBlockchain.blockList > linkedListLength ourBlockchain.blockList &&
      sameNumberLeadingZeros)

/-- The decision, with what is published after it and what is printed. -/
def considerPeerBlockchain (printProgress : Bool) (sync : SynchronizedBlockchain)
    (peerBlockchain : Blockchain) (peerBlockchainIsValid : Bool) :
    SynchronizedBlockchain × List String :=
  if switchesToPeerBlockchain sync.blockchain peerBlockchain peerBlockchainIsValid then
    ({ blockchain := peerBlockchain, version := sync.version + 1 },
      if printProgress then ["Server switched to longer blockchain: " ++
        toString (linkedListLength sync.blockchain.blockList) ++ " -> " ++
        toString (linkedListLength peerBlockchain.blockList) ++ "\n"] else [])
  else (sync, if peerBlockchainIsValid ∧ printProgress then
    ["Server did not switch blockchain\n"] else [])

/-- Unlock, and send the published chain in the command that was received. -/
def replyWithBlockchain (order : ByteOrder) (r : Request) (command : CommandSendBlockchain)
    (sync : SynchronizedBlockchain) (printed : List String) : Handled :=
  -- From here on the chain is published, and a failure does not undo it.
  match blockchainSerialize order (r.memory .encode) 0 sync.blockchain with
  | .error code => ⟨.error (.failed code), sync, [], printed⟩
  | .ok buffer =>
    if r.unlock ≠ 0 then ⟨.error (.failed (.errno r.unlock)), sync, [], printed⟩
    else match commandSendBlockchainSerialize order (r.memory .reply)
        ⟨command.header, buffer.size, buffer.bytes, buffer.bytes_length⟩ with
    | .error code => ⟨.error (.failed code), sync, [], printed⟩
    | .ok (sendBuf, _) =>
      match sendAll sendBuf r.acceptances with
      | (none, sent) => ⟨.error .blocked, sync, sent, printed⟩
      | (some (.error _), sent) =>
        ⟨.error (.failed .failureNetworkFunction), sync, sent, printed⟩
      | (some (.ok ()), sent) => ⟨.ok (), sync, sent, printed⟩

def handleOneConsensusRequest (host : Host) (printProgress : Bool)
    (sync : SynchronizedBlockchain) (r : Request) : Option Handled :=
  match receivePeerBlockchain host.byteOrder r with
  | none => none
  | some (.error interruption) => some ⟨.error interruption, sync, [], []⟩
  | some (.ok (command, peerBlockchain)) =>
    match blockchainVerify host peerBlockchain with
    | .error code => some ⟨.error (.failed code), sync, [], []⟩
    | .ok verdict =>
      let printed := if ¬ verdict.isValidBlockchain ∧ printProgress then
        ["Server received invalid blockchain\n"] else []
      -- An invalid chain goes on as well, and is answered with the published one.
      if r.lock ≠ 0 then some ⟨.error (.failed (.errno r.lock)), sync, [], printed⟩
      else
        let switch := considerPeerBlockchain printProgress sync peerBlockchain
          verdict.isValidBlockchain
        some (replyWithBlockchain host.byteOrder r command switch.1 (printed ++ switch.2))

end LeoCoin
