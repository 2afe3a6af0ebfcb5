import LeoCoin.Core.PeerDiscovery
import LeoCoin.Core.Receive

/-!
# Peer Discovery Thread

One attempt to retrieve the list of peers from the bootstrap server.

The client connects, sends a request to register its own address, receives the
list, and puts it in the place of its old one under the lock. What the socket
functions, the allocator and the mutex functions do is part of the attempt, as
for the servers. The old list stays until the new one has been decoded.

When progress is printed, the text of an address is whatever `inet_ntop` leaves
in a local array, which may be nothing it wrote.

## Main definitions

* `DiscoverPeersArgs`, `DiscoveryAttempt`: What the client meets.
* `requestRegistration`: Connecting and sending the request.
* `receivePeerList`: Receiving and decoding the reply.
* `replacePeerInfoList`: The replacement under the lock.
* `discoverPeersOnce`: The attempt.
-/

namespace LeoCoin

/-- The stages of an attempt that allocate memory or decode from it. -/
inductive DiscoveryStage where
  | send
  | receive
  | frame
  | decode
  deriving DecidableEq, Repr

structure DiscoveryAttempt where
  /-- Whether `socket` returns a descriptor. -/
  socket : Bool
  /-- Whether `connect` succeeds. -/
  connect : Bool
  acceptances : List Acceptance
  arrivals : List Arrival
  memory : DiscoveryStage → Allocator
  /-- The heap behind the buffer a stage decodes from. -/
  heap : DiscoveryStage → Nat → UInt8
  /-- What the mutex functions return around the replacement. -/
  lock : Nat
  unlock : Nat
  /-- What they return around the printing. -/
  lockToPrint : Nat
  unlockToPrint : Nat
  /-- The text in the local array after `inet_ntop`. -/
  ipStr : PeerInfo → String

/-- The arguments of the thread that an attempt reads, apart from the list. -/
structure DiscoverPeersArgs where
  peerAddr : SockaddrIn6
  printProgress : Bool

structure Discovered where
  ending : Except Interruption Unit
  peerInfoList : List PeerInfo
  sent : List UInt8
  printed : List String

/-- The request to register the client's own address. -/
def registrationRequest (args : DiscoverPeersArgs) : CommandRegisterPeer :=
  { args.peerAddr with
    header :=
      { commandPrefix := COMMAND_PREFIX
        command := COMMAND_REGISTER_PEER
        commandLen := 0 } }

/-- Connect and send the request: how it ends, what is sent and what is
    printed. -/
def requestRegistration (order : ByteOrder) (args : DiscoverPeersArgs) (r : DiscoveryAttempt) :
    Except Interruption Unit × List UInt8 × List String :=
  let attempting := if args.printProgress then
    ["Attempting to connect to peer discovery server.\n"] else []
  let connected := if args.printProgress then attempting ++ ["Connected.\n"] else []
  if ¬ r.socket then (.error (.failed .failureNetworkFunction), [], attempting)
  else if ¬ r.connect then (.error (.failed .failureNetworkFunction), [], attempting)
  else match commandRegisterPeerSerialize order (r.memory .send) (registrationRequest args) with
  | .error code => (.error (.failed code), [], connected)
  | .ok (sendBuf, _) =>
    match sendAll sendBuf r.acceptances with
    | (none, sent) => (.error .blocked, sent, connected)
    | (some (.error code), sent) => (.error (.failed code), sent, connected)
    | (some (.ok ()), sent) => (.ok (), sent, connected)

/-- Receive the reply and decode the list in it. -/
def receivePeerList (order : ByteOrder) (r : DiscoveryAttempt) :
    Option (Except Interruption (List PeerInfo)) :=
  match (receiveCommand .discovery order (r.memory .receive) (r.heap .receive)
      r.arrivals).outcome with
  | none => none
  | some (.error interruption) => some (.error interruption)
  | some (.ok received) =>
    match (commandSendPeerListDeserialize order (r.memory .frame)
        (received.buffer (r.heap .frame)) .start).1 with
    | .error code => some (.error (.failed code))
    | .ok command =>
      match (peerInfoListDeserialize order (r.memory .decode)
          (.ofBytes command.data (r.heap .decode)) .start).1 with
      | .error code => some (.error (.failed code))
      | .ok newPeerInfoList => some (.ok newPeerInfoList)

/-- The lines that show a list. -/
def peerInfoListLines (order : ByteOrder) (r : DiscoveryAttempt) (peerInfoList : List PeerInfo) :
    List String :=
  peerInfoList.flatMap fun peer =>
    ["IPv6 Address: " ++ r.ipStr peer ++ "\n",
      "Port: " ++ toString (order.value (bigEndian 2 peer.listenAddr.sin6Port.toNat)) ++ "\n"]

/-- Replace the list under the lock, and show it. -/
def replacePeerInfoList (order : ByteOrder) (args : DiscoverPeersArgs) (r : DiscoveryAttempt)
    (peerInfoList newPeerInfoList : List PeerInfo) :
    Except Interruption Unit × List PeerInfo × List String :=
  if r.lock ≠ 0 then (.error (.failed .failurePthreadFunction), peerInfoList, [])
  -- From here on the new list is in place.
  else if r.unlock ≠ 0 then (.error (.failed .failurePthreadFunction), newPeerInfoList, [])
  else if ¬ args.printProgress then (.ok (), newPeerInfoList, [])
  else if r.lockToPrint ≠ 0 then (.error (.failed .failurePthreadFunction), newPeerInfoList, [])
  else
    let lines := peerInfoListLines order r newPeerInfoList
    if r.unlockToPrint ≠ 0 then
      (.error (.failed .failurePthreadFunction), newPeerInfoList, lines)
    else (.ok (), newPeerInfoList, lines)

def discoverPeersOnce (order : ByteOrder) (args : DiscoverPeersArgs)
    (peerInfoList : List PeerInfo) (r : DiscoveryAttempt) : Option Discovered :=
  let request := requestRegistration order args r
  match request.1 with
  | .error interruption => some ⟨.error interruption, peerInfoList, request.2.1, request.2.2⟩
  | .ok () =>
    match receivePeerList order r with
    | none => none
    | some (.error interruption) =>
      some ⟨.error interruption, peerInfoList, request.2.1, request.2.2⟩
    | some (.ok newPeerInfoList) =>
      let replaced := replacePeerInfoList order args r peerInfoList newPeerInfoList
      some ⟨replaced.1, replaced.2.1, request.2.1, request.2.2 ++ replaced.2.2⟩

end LeoCoin
