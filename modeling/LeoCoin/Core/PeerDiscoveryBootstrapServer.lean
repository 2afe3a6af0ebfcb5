import LeoCoin.Core.PeerDiscovery
import LeoCoin.Core.Receive

/-!
# Peer Discovery Bootstrap Server

The handler of one request to register a peer.

The table is the linked list of the peers the server knows. Its entries are
records on the heap, so an entry is a peer together with the name of its
record. A new record gets a name that no entry has. What the handler frees is
part of its result, as is what it prints.

A request is everything the handler meets, as for the consensus peer server:
what the socket delivers and takes, which allocations are granted, what the
mutex functions return, and two readings of the clock. What the functions
return that look up names is given for each call the handler may make: one for
the peer that registers, and one for each peer it removes.

The record of the peer is allocated without a look at the result, and then
written to. The handler has no outcome if the allocation fails.

A peer has expired if the time since it last connected exceeds the keep-alive
time. The code compares seconds with microseconds divided by a million in
floating point. Here both sides are compared as integers.

## Main definitions

* `PeerRecord`: An entry of the table.
* `PeerRequest`, `BootstrapArgs`: What the handler meets.
* `registerPeer`: Adding or refreshing the peer.
* `peerExpired`, `sweepPeers`: Removing what has expired.
* `replyWithPeerList`: The reply.
* `handleOnePeerDiscoveryRequest`: The handler.
-/

namespace LeoCoin

/-- A peer and the name of the record that holds it. -/
structure PeerRecord where
  name : Nat
  info : PeerInfo
  deriving DecidableEq

/-- A name that no entry has. -/
def freshName (peerInfoList : List PeerRecord) : Nat :=
  (peerInfoList.map fun peer => peer.name + 1).foldr max 0

/-- The stages of the handler that allocate memory or decode from it. -/
inductive PeerStage where
  | receive
  | frame
  | record
  | node
  | encode
  | reply
  deriving DecidableEq, Repr

/-- The lookups of names: for the peer that registers, and for the peer of a
    record that is removed. -/
inductive PeerLookup where
  | registration
  | removal (name : Nat)
  deriving DecidableEq, Repr

structure PeerRequest where
  arrivals : List Arrival
  acceptances : List Acceptance
  memory : PeerStage → Allocator
  /-- The heap behind the buffer a stage decodes from. -/
  heap : PeerStage → Nat → UInt8
  /-- The time at which the peer registers. -/
  registered : Int64
  /-- The time at which the table is swept. -/
  swept : Int64
  /-- What `pthread_mutex_lock` returns. -/
  lock : Nat
  /-- What the `pthread_mutex_unlock` before the reply returns. -/
  unlock : Nat
  /-- The host name `getnameinfo` finds, if it succeeds. -/
  getnameinfo : PeerLookup → Option String
  /-- The text `inet_ntop` returns, if it is not a null pointer. -/
  inetNtop : PeerLookup → Option String

/-- The arguments of the thread that the handler reads, with the compare
    function of the list. -/
structure BootstrapArgs where
  peerKeepaliveMicroseconds : UInt64
  printProgress : Bool
  compareFunction : Option (PeerInfo → PeerInfo → Int)

/-- The line that tells what happened to a peer, if both lookups succeed. -/
def peerLine (order : ByteOrder) (r : PeerRequest) (lookup : PeerLookup) (what : String)
    (peer : PeerInfo) : Except ReturnCode String :=
  match r.getnameinfo lookup with
  | none => .error .failureNetworkFunction
  | some peerHostname =>
    match r.inetNtop lookup with
    | none => .error .failureNetworkFunction
    | some peerAddrStr =>
      -- The port is printed through `htons`.
      let port := order.value (bigEndian 2 peer.listenAddr.sin6Port.toNat)
      .ok ("Server " ++ what ++ " peer " ++ peerHostname ++ " (" ++ peerAddrStr ++ "):" ++
        toString port ++ "\n")

/-- What a part of the handler leaves: how it ended, the table, the names of the
    records it freed, and what it printed. -/
structure PeerUpdate where
  ending : Except ReturnCode Unit
  peerInfoList : List PeerRecord
  released : List Nat
  printed : List String

/-- Set the time of the record that was found. -/
def refreshPeer (peerInfoList : List PeerRecord) (found : PeerRecord) (lastConnected : Int64) :
    List PeerRecord :=
  peerInfoList.map fun peer =>
    if peer.name = found.name then
      { peer with info := { peer.info with lastConnected := lastConnected } }
    else peer

/-- Add the peer to the table, or refresh its entry. -/
def registerPeer (order : ByteOrder) (args : BootstrapArgs) (peerInfoList : List PeerRecord)
    (r : PeerRequest) (listenAddr : SockaddrIn6) : Option PeerUpdate :=
  -- The new record is written to whatever `malloc` returned.
  if ¬ (r.memory .record).grants 0 sizeofPeerInfo then none
  else
    let peerInfo : PeerRecord :=
      { name := freshName peerInfoList
        info := { listenAddr := listenAddr, lastConnected := r.registered } }
    let released := [peerInfo.name]
    if r.lock ≠ 0 then some ⟨.error (.errno r.lock), peerInfoList, released, []⟩
    else match linkedListFind (args.compareFunction.map fun compare peer1 peer2 =>
        compare peer1.info peer2.info) peerInfoList peerInfo with
    | .error code => some ⟨.error code, peerInfoList, released, []⟩
    | .ok none =>
      match linkedListPrepend (r.memory .node) 0 peerInfoList peerInfo with
      | .error code => some ⟨.error code, peerInfoList, released, []⟩
      | .ok prepended =>
        if ¬ args.printProgress then some ⟨.ok (), prepended, [], []⟩
        else match peerLine order r .registration "added" peerInfo.info with
        -- The record is in the table already, and is freed all the same.
        | .error code => some ⟨.error code, prepended, released, []⟩
        | .ok line => some ⟨.ok (), prepended, [], [line]⟩
    | .ok (some foundPeerInfo) =>
      let refreshed := refreshPeer peerInfoList foundPeerInfo peerInfo.info.lastConnected
      if ¬ args.printProgress then some ⟨.ok (), refreshed, released, []⟩
      else match peerLine order r .registration "updated" peerInfo.info with
      | .error code => some ⟨.error code, refreshed, released, []⟩
      | .ok line => some ⟨.ok (), refreshed, released, [line]⟩

/-- The time since a peer last connected exceeds the keep-alive time. -/
def peerExpired (args : BootstrapArgs) (currentTime : Int64) (peer : PeerInfo) : Bool :=
  (currentTime.toInt - peer.lastConnected.toInt) * 10 ^ 6 > args.peerKeepaliveMicroseconds.toNat

/-- Remove the expired peers, from the head of the list on. -/
def sweepPeers (order : ByteOrder) (args : BootstrapArgs) (r : PeerRequest) :
    List PeerRecord → PeerUpdate
  | [] => ⟨.ok (), [], [], []⟩
  | peer :: rest =>
    if peerExpired args r.swept peer.info then
      if ¬ args.printProgress then
        let swept := sweepPeers order args r rest
        { swept with released := peer.name :: swept.released }
      else match peerLine order r (.removal peer.name) "removed" peer.info with
      -- The entry is out of the list by now, and its record is not freed.
      | .error code => ⟨.error code, rest, [], []⟩
      | .ok line =>
        let swept := sweepPeers order args r rest
        { swept with released := peer.name :: swept.released, printed := line :: swept.printed }
    else
      let swept := sweepPeers order args r rest
      { swept with peerInfoList := peer :: swept.peerInfoList }

/-- Encode the table, unlock, and send the encoding. -/
def replyWithPeerList (order : ByteOrder) (r : PeerRequest) (peerInfoList : List PeerRecord) :
    Except Interruption Unit × List UInt8 :=
  match peerInfoListSerialize order (r.memory .encode) 0
      (peerInfoList.map PeerRecord.info) with
  | .error code => (.error (.failed code), [])
  | .ok buffer =>
    if r.unlock ≠ 0 then (.error (.failed (.errno r.unlock)), [])
    else match commandSendPeerListSerialize order (r.memory .reply)
        { header :=
            { commandPrefix := COMMAND_PREFIX
              command := COMMAND_SEND_PEER_LIST
              commandLen := 0 }
          dataLen := buffer.size
          data := buffer.bytes
          length_data := buffer.bytes_length } with
    | .error code => (.error (.failed code), [])
    | .ok (sendBuf, _) =>
      match sendAll sendBuf r.acceptances with
      | (none, sent) => (.error .blocked, sent)
      | (some (.error _), sent) => (.error (.failed .failureNetworkFunction), sent)
      | (some (.ok ()), sent) => (.ok (), sent)

/-- Receive a request and decode it. -/
def receiveRegisterPeer (order : ByteOrder) (r : PeerRequest) :
    Option (Except Interruption CommandRegisterPeer) :=
  match (receiveCommand .bootstrap order (r.memory .receive) (r.heap .receive)
      r.arrivals).outcome with
  | none => none
  | some (.error interruption) => some (.error interruption)
  | some (.ok received) =>
    match (commandRegisterPeerDeserialize order (received.buffer (r.heap .frame)) .start).1 with
    | .error code => some (.error (.failed code))
    | .ok command => some (.ok command)

structure HandledPeer where
  ending : Except Interruption Unit
  peerInfoList : List PeerRecord
  released : List Nat
  sent : List UInt8
  printed : List String

def handleOnePeerDiscoveryRequest (order : ByteOrder) (args : BootstrapArgs)
    (peerInfoList : List PeerRecord) (r : PeerRequest) : Option HandledPeer :=
  match receiveRegisterPeer order r with
  | none => none
  | some (.error interruption) => some ⟨.error interruption, peerInfoList, [], [], []⟩
  | some (.ok command) =>
    match registerPeer order args peerInfoList r command.toSockaddrIn6 with
    | none => none
    | some registered =>
      match registered.ending with
      | .error code =>
        some ⟨.error (.failed code), registered.peerInfoList, registered.released, [],
          registered.printed⟩
      | .ok () =>
        let swept := sweepPeers order args r registered.peerInfoList
        let released := registered.released ++ swept.released
        let printed := registered.printed ++ swept.printed
        match swept.ending with
        | .error code =>
          some ⟨.error (.failed code), swept.peerInfoList, released, [], printed⟩
        | .ok () =>
          let reply := replyWithPeerList order r swept.peerInfoList
          some ⟨reply.1, swept.peerInfoList, released, reply.2, printed⟩

end LeoCoin
