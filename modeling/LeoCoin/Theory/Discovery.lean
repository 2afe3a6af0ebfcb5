import LeoCoin.Core.PeerDiscoveryThread
import LeoCoin.Theory.PeerTable

/-!
# Discovery

A client and the bootstrap server, talking to each other.

The client sends the request to register its address and receives a list. The
server receives a request, adds or refreshes the peer, sweeps its table and
sends the rest. The two programs run on hosts of any byte orders, and the
connection cuts the two frames at will and may end at any time.

If the client succeeds, then it has received a list. What it has received
begins what the server has sent, and that begins the frame of the table. So it
has received that frame and decoded the table. The server, to get to its reply,
has received a request, and so it has received the one of the client. The
address in it is what the client put into it: it went through the byte swaps of
two encoders and two decoders, and each decoder undoes its encoder.

If the client fails, the new list has not been put in place, unless the mutex
functions fail.

## Main definitions

* `Talk`: A client and a server at the two ends of a connection.

## Theorems

* `requestRegistration_sent`: What the client sends.
* `receiveRegisterPeer_frame`: What the server decodes of it.
* `registerPeer_registered`: A registered peer is in the table.
* `handle_sent`: How the server gets to its reply.
* `receivePeerList_frame`: What the client decodes of the reply.
* `discovery_law`: The exchange from end to end.
-/

namespace LeoCoin

open Decoder

/-- The frame of a request to register an address, as it is sent. -/
def registerPeerFrame (listenAddr : SockaddrIn6) : List UInt8 :=
  headerImage COMMAND_REGISTER_PEER 32 ++ (sockaddrBytes listenAddr ++ List.replicate 4 0)

theorem registerPeerBytes_eq (encoding : ByteOrder) (command : CommandRegisterPeer)
    (hfront : command.header.commandPrefix = COMMAND_PREFIX)
    (hcode : command.header.command = COMMAND_REGISTER_PEER)
    (hlen : command.header.commandLen = 32) :
    registerPeerBytes encoding command = registerPeerFrame command.toSockaddrIn6 := by
  rw [registerPeerBytes, headerBytes_eq_headerImage encoding _ hfront, hcode, hlen,
    registerPeerFrame]

/-- What the client sends begins the frame of a request for its address. -/
theorem requestRegistration_sent (order : ByteOrder) (args : DiscoverPeersArgs)
    (r : DiscoveryAttempt) :
    (requestRegistration order args r).2.1 <+: registerPeerFrame args.peerAddr := by
  unfold requestRegistration
  simp only
  by_cases hsocket : ¬ r.socket = true
  · rw [if_pos hsocket]
    exact List.nil_prefix
  rw [if_neg hsocket]
  by_cases hconnect : ¬ r.connect = true
  · rw [if_pos hconnect]
    exact List.nil_prefix
  rw [if_neg hconnect]
  rcases hser : commandRegisterPeerSerialize order (r.memory .send) (registrationRequest args) with
    code | ⟨sendBuf, sent⟩
  · exact List.nil_prefix
  · rcases bytes_of_commandRegisterPeerSerialize _ _ _ _ _ hser with ⟨_, _, rfl, hbytes⟩
    have hframe : sendBuf = registerPeerFrame args.peerAddr :=
      hbytes.trans (registerPeerBytes_eq order _ rfl rfl rfl)
    have hsent := sendAll_sent r.acceptances sendBuf
    rw [hframe] at hsent ⊢
    simp only
    rcases hall : sendAll (registerPeerFrame args.peerAddr) r.acceptances with ⟨result, sent⟩
    rw [hall] at hsent
    -- However the loop ends, it has sent this much.
    rcases result with _ | _ | _
    · exact hsent
    · exact hsent
    · exact hsent

/-- If what arrives begins that frame, then a request that is decoded is for
    the address. -/
theorem receiveRegisterPeer_frame (order : ByteOrder) (r : PeerRequest)
    (listenAddr : SockaddrIn6) (hcontent : content r.arrivals <+: registerPeerFrame listenAddr)
    (command : CommandRegisterPeer)
    (h : receiveRegisterPeer order r = some (.ok command)) :
    command.toSockaddrIn6 = listenAddr := by
  unfold receiveRegisterPeer at h
  split at h
  · exact absurd h (by simp only [reduceCtorEq, not_false_eq_true])
  · exact absurd h (by simp only [Option.some.injEq, reduceCtorEq, not_false_eq_true])
  rename_i received hreceived
  have hpayload : (sockaddrBytes listenAddr ++ List.replicate 4 0).length =
      (32 : UInt64).toNat := by
    rw [List.length_append, sockaddrBytes_length, List.length_replicate]
    rfl
  rcases received_frame .bootstrap order _ _ _ received _ _ _ hpayload hcontent hreceived with
    ⟨_, rfl⟩
  -- The decoder is given the frame and its length.
  have hdecode := commandRegisterPeerDeserialize_ok order order
    (ReceivedCommand.buffer ⟨registerPeerFrame listenAddr, 16 + 32⟩ (r.heap .frame))
    { listenAddr with header := ⟨COMMAND_PREFIX, COMMAND_REGISTER_PEER, 32⟩ } rfl rfl
    (by
      rw [registerPeerBytes_eq order _ rfl rfl rfl]
      exact holds_ofBytes _ (r.heap .frame))
    (Nat.le_refl 48)
  have hbuffer : ReceivedCommand.buffer ⟨headerImage COMMAND_REGISTER_PEER 32 ++
      (sockaddrBytes listenAddr ++ List.replicate 4 0), 16 + 32⟩ (r.heap .frame) =
      ReceivedCommand.buffer ⟨registerPeerFrame listenAddr, 16 + 32⟩ (r.heap .frame) := rfl
  simp only [hbuffer, hdecode, Option.some.injEq, Except.ok.injEq] at h
  rw [← h]

/-- A peer that is registered is in the table, with the time at which it
    registered. -/
theorem registerPeer_registered (order : ByteOrder) (args : BootstrapArgs)
    (peerInfoList : List PeerRecord) (r : PeerRequest) (listenAddr : SockaddrIn6) (u : PeerUpdate)
    (hcompare : args.compareFunction = some (comparePeerInfo order))
    (h : registerPeer order args peerInfoList r listenAddr = some u) (hok : u.ending = .ok ()) :
    ∃ peer ∈ u.peerInfoList, peer.info = ⟨listenAddr, r.registered⟩ := by
  cases (registers_of_registerPeer order args peerInfoList r listenAddr u h).2 with
  | locked _ => exact absurd hok (by simp only [reduceCtorEq, not_false_eq_true])
  | incomparable _ => exact absurd hok (by simp only [reduceCtorEq, not_false_eq_true])
  | unlinked _ => exact absurd hok (by simp only [reduceCtorEq, not_false_eq_true])
  | added lines _ => exact ⟨_, List.mem_cons_self, rfl⟩
  | addedAndReleased _ _ _ _ _ =>
      exact absurd hok (by simp only [reduceCtorEq, not_false_eq_true])
  | refreshed ending lines found hfound _ =>
      rcases hfound.found hcompare with ⟨hmem, haddr⟩
      refine ⟨_, List.mem_map_of_mem hmem, ?_⟩
      rw [if_pos rfl, haddr]

/-- The server sends something only if it has registered the peer and swept its
    table, and then it has left the table it replies with. -/
theorem handle_sent (order : ByteOrder) (args : BootstrapArgs) (peerInfoList : List PeerRecord)
    (r : PeerRequest) (handled : HandledPeer)
    (h : handleOnePeerDiscoveryRequest order args peerInfoList r = some handled)
    (hsent : handled.sent ≠ []) :
    ∃ command u, receiveRegisterPeer order r = some (.ok command) ∧
      registerPeer order args peerInfoList r command.toSockaddrIn6 = some u ∧
      u.ending = .ok () ∧
      handled.peerInfoList =
        u.peerInfoList.filter (fun peer => !peerExpired args r.swept peer.info) ∧
      handled.sent = (replyWithPeerList order r handled.peerInfoList).2 := by
  unfold handleOnePeerDiscoveryRequest at h
  split at h
  · exact absurd h (by simp only [reduceCtorEq, not_false_eq_true])
  · rw [Option.some.injEq] at h
    exact absurd (congrArg HandledPeer.sent h).symm hsent
  rename_i command hreceive
  split at h
  · exact absurd h (by simp only [reduceCtorEq, not_false_eq_true])
  rename_i u hregister
  split at h
  · rw [Option.some.injEq] at h
    exact absurd (congrArg HandledPeer.sent h).symm hsent
  rename_i hending
  simp only at h
  split at h
  · rw [Option.some.injEq] at h
    exact absurd (congrArg HandledPeer.sent h).symm hsent
  rename_i hswept
  rw [Option.some.injEq] at h
  refine ⟨command, u, hreceive, hregister, hending, ?_, ?_⟩
  · rw [← h]
    exact sweepPeers_ok order args r u.peerInfoList hswept
  · rw [← h]

/-- A list that is decoded was received in a command with the list as its
    data. -/
theorem receivePeerList_ok {order : ByteOrder} {r : DiscoveryAttempt}
    {newPeerInfoList : List PeerInfo}
    (h : receivePeerList order r = some (.ok newPeerInfoList)) :
    ∃ received command,
      (receiveCommand .discovery order (r.memory .receive) (r.heap .receive)
        r.arrivals).outcome = some (.ok received) ∧
      (commandSendPeerListDeserialize order (r.memory .frame)
        (received.buffer (r.heap .frame)) .start).1 = .ok command ∧
      (peerInfoListDeserialize order (r.memory .decode)
        (.ofBytes command.data (r.heap .decode)) .start).1 = .ok newPeerInfoList := by
  unfold receivePeerList at h
  split at h
  · exact absurd h (by simp only [reduceCtorEq, not_false_eq_true])
  · exact absurd h (by simp only [Option.some.injEq, reduceCtorEq, not_false_eq_true])
  rename_i received hreceived
  split at h
  · exact absurd h (by simp only [Option.some.injEq, reduceCtorEq, not_false_eq_true])
  rename_i command hcommand
  split at h
  · exact absurd h (by simp only [Option.some.injEq, reduceCtorEq, not_false_eq_true])
  rename_i decoded hdecoded
  rw [Option.some.injEq, Except.ok.injEq] at h
  rw [← h]
  exact ⟨received, command, hreceived, hcommand, hdecoded⟩

/-- If what arrives begins the frame of a list, then a list that is decoded is
    that list. -/
theorem receivePeerList_frame (order encoding : ByteOrder) (r : DiscoveryAttempt)
    (peerInfoList newPeerInfoList : List PeerInfo) (buffer : SerializationBuffer)
    (hbytes : buffer.bytes = peerInfoListBytes encoding peerInfoList)
    (hcontent : content r.arrivals <+: peerListFrame encoding peerInfoList)
    (h : receivePeerList order r = some (.ok newPeerInfoList)) :
    newPeerInfoList = peerInfoList := by
  have hsmall : (peerInfoListBytes encoding peerInfoList).length ≤ PTRDIFF_MAX := by
    rw [← hbytes, buffer.bytes_length]
    exact buffer.size_le
  rcases peerListFrame_split encoding peerInfoList hsmall with ⟨n, payload, hsplit, hlen, hsize⟩
  rcases receivePeerList_ok h with ⟨received, command, hreceived, hcommand, hdecoded⟩
  rw [hsplit] at hcontent
  rcases received_frame .discovery order _ _ _ received _ _ _ hlen hcontent hreceived with ⟨_, rfl⟩
  -- The decoder is given the frame and its length.
  have hbuffer : ReceivedCommand.buffer
      ⟨headerImage COMMAND_SEND_PEER_LIST n ++ payload, 16 + n⟩ (r.heap .frame) =
      .ofBytes (peerListFrame encoding peerInfoList) (r.heap .frame) := by
    rw [ReceivedCommand.buffer, Buffer.ofBytes, hsize, ← hsplit]
  rw [hbuffer] at hcommand
  exact peerListFrame_decoded encoding order _ _ _ _ peerInfoList newPeerInfoList buffer hbytes
    command hcommand hdecoded

/-- A list cannot be received if nothing arrives. -/
theorem receivePeerList_content (order : ByteOrder) (r : DiscoveryAttempt)
    (newPeerInfoList : List PeerInfo)
    (h : receivePeerList order r = some (.ok newPeerInfoList)) : content r.arrivals ≠ [] := by
  intro hnothing
  rcases receivePeerList_ok h with ⟨received, _, hreceived, _, _⟩
  rcases receiveCommand_ok _ _ _ _ _ _ hreceived with ⟨n, payload, _, _, hfront⟩
  rw [hnothing] at hfront
  have hle := hfront.length_le
  rw [List.length_append, headerImage_length, List.length_nil] at hle
  omega

/-- An attempt has an outcome, as the client looks at what `realloc` returns. -/
theorem receivePeerList_exists (order : ByteOrder) (r : DiscoveryAttempt) :
    ∃ outcome, receivePeerList order r = some outcome := by
  have hreceive := receiveCommand_exists .discovery order (r.memory .receive) (r.heap .receive)
    r.arrivals fun n rest _ => Or.inl rfl
  rcases hreceive with ⟨interruption | received, hreceive⟩
  · rw [receivePeerList, hreceive]
    exact ⟨_, rfl⟩
  · rw [receivePeerList, hreceive]
    simp only
    split
    · exact ⟨_, rfl⟩
    · split
      · exact ⟨_, rfl⟩
      · exact ⟨_, rfl⟩

/-- The mutex functions of an attempt succeed. -/
structure DiscoveryAttempt.Locks (r : DiscoveryAttempt) : Prop where
  lock : r.lock = 0
  unlock : r.unlock = 0
  lockToPrint : r.lockToPrint = 0
  unlockToPrint : r.unlockToPrint = 0

/-- If the mutex functions succeed, so does the replacement. -/
theorem replacePeerInfoList_locks (order : ByteOrder) (args : DiscoverPeersArgs)
    (r : DiscoveryAttempt) (peerInfoList newPeerInfoList : List PeerInfo) (h : r.Locks) :
    (replacePeerInfoList order args r peerInfoList newPeerInfoList).1 = .ok () := by
  unfold replacePeerInfoList
  simp only [h.lock, h.unlock, h.lockToPrint, h.unlockToPrint, ne_eq, not_true_eq_false, if_false]
  by_cases hprint : ¬ args.printProgress = true
  · rw [if_pos hprint]
  · rw [if_neg hprint]

/-- If the replacement succeeds, the new list is in place. -/
theorem replacePeerInfoList_ok (order : ByteOrder) (args : DiscoverPeersArgs)
    (r : DiscoveryAttempt) (peerInfoList newPeerInfoList : List PeerInfo)
    (hok : (replacePeerInfoList order args r peerInfoList newPeerInfoList).1 = .ok ()) :
    (replacePeerInfoList order args r peerInfoList newPeerInfoList).2.1 = newPeerInfoList := by
  unfold replacePeerInfoList at hok ⊢
  by_cases hlock : r.lock ≠ 0
  · rw [if_pos hlock] at hok
    exact absurd hok (by simp only [reduceCtorEq, not_false_eq_true])
  rw [if_neg hlock]
  -- The new list is in place whatever comes next.
  split
  · rfl
  split
  · rfl
  split
  · rfl
  · simp only
    split
    · rfl
    · rfl

/-- An attempt fails with the old list, or it has received a list and puts it
    in place. -/
theorem discoverPeersOnce_cases (order : ByteOrder) (args : DiscoverPeersArgs)
    (peerInfoList : List PeerInfo) (r : DiscoveryAttempt) :
    ∃ discovered, discoverPeersOnce order args peerInfoList r = some discovered ∧
      discovered.sent = (requestRegistration order args r).2.1 ∧
      ((discovered.ending ≠ .ok () ∧ discovered.peerInfoList = peerInfoList) ∨
        ∃ newPeerInfoList, receivePeerList order r = some (.ok newPeerInfoList) ∧
          discovered.ending = (replacePeerInfoList order args r peerInfoList newPeerInfoList).1 ∧
          discovered.peerInfoList =
            (replacePeerInfoList order args r peerInfoList newPeerInfoList).2.1) := by
  unfold discoverPeersOnce
  rcases hrequest : (requestRegistration order args r).1 with interruption | _
  · simp only [hrequest]
    exact ⟨_, rfl, rfl, Or.inl ⟨by simp only [ne_eq, reduceCtorEq, not_false_eq_true], rfl⟩⟩
  · simp only [hrequest]
    rcases receivePeerList_exists order r with ⟨interruption | newPeerInfoList, hreceive⟩
    · rw [hreceive]
      exact ⟨_, rfl, rfl, Or.inl ⟨by simp only [ne_eq, reduceCtorEq, not_false_eq_true], rfl⟩⟩
    · rw [hreceive]
      exact ⟨_, rfl, rfl, Or.inr ⟨newPeerInfoList, rfl, rfl, rfl⟩⟩

/-- A client and a server at the two ends of a connection. What arrives at
    either end begins what the other end sends, however it is cut. -/
structure Talk (clientOrder serverOrder : ByteOrder) (args : DiscoverPeersArgs)
    (clientList : List PeerInfo) (attempt : DiscoveryAttempt) (bootstrap : BootstrapArgs)
    (serverList : List PeerRecord) (request : PeerRequest) (discovered : Discovered)
    (handled : HandledPeer) : Prop where
  client : discoverPeersOnce clientOrder args clientList attempt = some discovered
  server : handleOnePeerDiscoveryRequest serverOrder bootstrap serverList request = some handled
  toServer : content request.arrivals <+: discovered.sent
  toClient : content attempt.arrivals <+: handled.sent

/-- A client that has received a list from the server has the table the server
    replied with. Its own address is in there, unless the entry expired between
    the two readings of the clock. -/
theorem receivePeerList_talk {clientOrder serverOrder : ByteOrder} {args : DiscoverPeersArgs}
    {clientList : List PeerInfo} {attempt : DiscoveryAttempt} {bootstrap : BootstrapArgs}
    {serverList : List PeerRecord} {request : PeerRequest} {discovered : Discovered}
    {handled : HandledPeer}
    (hcompare : bootstrap.compareFunction = some (comparePeerInfo serverOrder))
    (h : Talk clientOrder serverOrder args clientList attempt bootstrap serverList request
      discovered handled)
    (hsent : discovered.sent = (requestRegistration clientOrder args attempt).2.1)
    (newPeerInfoList : List PeerInfo)
    (hreceive : receivePeerList clientOrder attempt = some (.ok newPeerInfoList)) :
    newPeerInfoList = handled.peerInfoList.map PeerRecord.info ∧
      ((request.swept.toInt - request.registered.toInt) * 10 ^ 6 ≤
          bootstrap.peerKeepaliveMicroseconds.toNat →
        ∃ peer ∈ newPeerInfoList, peer.listenAddr = args.peerAddr) := by
  -- Something has arrived, so the server has sent something.
  have hsome : handled.sent ≠ [] := by
    intro hnothing
    have hfront := h.toClient
    rw [hnothing] at hfront
    exact receivePeerList_content clientOrder attempt newPeerInfoList hreceive
      (List.prefix_nil.mp hfront)
  rcases handle_sent serverOrder bootstrap serverList request handled h.server hsome with
    ⟨command, u, hcommand, hregister, hending, hswept, hreply⟩
  rcases replyWithPeerList_cases serverOrder request handled.peerInfoList with
    ⟨hnothing, _⟩ | ⟨buffer, hbytes, hsend, _⟩
  · exact absurd (hreply.trans hnothing) hsome
  have hframe : content attempt.arrivals <+:
      peerListFrame serverOrder (handled.peerInfoList.map PeerRecord.info) := by
    refine h.toClient.trans ?_
    rw [hreply, hsend]
    exact sendAll_sent request.acceptances _
  have hlist := receivePeerList_frame clientOrder serverOrder attempt _ newPeerInfoList buffer
    hbytes hframe hreceive
  refine ⟨hlist, ?_⟩
  intro hclock
  -- The request that the server has decoded is the one of the client.
  have haddr : command.toSockaddrIn6 = args.peerAddr := by
    refine receiveRegisterPeer_frame serverOrder request args.peerAddr ?_ command hcommand
    refine h.toServer.trans ?_
    rw [hsent]
    exact requestRegistration_sent clientOrder args attempt
  rcases registerPeer_registered serverOrder bootstrap serverList request _ u hcompare hregister
    hending with ⟨peer, hpeer, hinfo⟩
  have hkept : peerExpired bootstrap request.swept peer.info = false := by
    rw [hinfo]
    exact decide_eq_false (not_lt.mpr hclock)
  refine ⟨peer.info, ?_, by rw [hinfo, haddr]⟩
  rw [hlist, hswept]
  refine List.mem_map_of_mem (List.mem_filter.mpr ⟨hpeer, ?_⟩)
  rw [hkept]
  rfl

/-- An attempt always has an outcome. If it is not a success and the mutex
    functions succeed, the client has the list it had. If it is a success of a
    talk with the server, the client has the table that the server replied
    with, with an entry for its own address. -/
theorem discovery_law (clientOrder : ByteOrder) (args : DiscoverPeersArgs)
    (clientList : List PeerInfo) (attempt : DiscoveryAttempt) :
    ∃ discovered, discoverPeersOnce clientOrder args clientList attempt = some discovered ∧
      (attempt.Locks → discovered.ending ≠ .ok () → discovered.peerInfoList = clientList) ∧
      ∀ (serverOrder : ByteOrder) (bootstrap : BootstrapArgs) (serverList : List PeerRecord)
        (request : PeerRequest) (handled : HandledPeer),
        bootstrap.compareFunction = some (comparePeerInfo serverOrder) →
        Talk clientOrder serverOrder args clientList attempt bootstrap serverList request
          discovered handled →
        discovered.ending = .ok () →
        discovered.peerInfoList = handled.peerInfoList.map PeerRecord.info ∧
        ((request.swept.toInt - request.registered.toInt) * 10 ^ 6 ≤
            bootstrap.peerKeepaliveMicroseconds.toNat →
          ∃ peer ∈ discovered.peerInfoList, peer.listenAddr = args.peerAddr) := by
  rcases discoverPeersOnce_cases clientOrder args clientList attempt with
    ⟨discovered, hrun, hsent, ⟨hne, hsame⟩ | ⟨newPeerInfoList, hreceive, hending, hlist⟩⟩
  · exact ⟨discovered, hrun, fun _ _ => hsame, fun _ _ _ _ _ _ _ hok => absurd hok hne⟩
  · refine ⟨discovered, hrun, ?_, ?_⟩
    · intro hlocks hne
      rw [hending] at hne
      exact absurd (replacePeerInfoList_locks clientOrder args attempt _ _ hlocks) hne
    · intro serverOrder bootstrap serverList request handled hcompare htalk hok
      rw [hending] at hok
      rw [hlist, replacePeerInfoList_ok clientOrder args attempt _ _ hok]
      exact receivePeerList_talk hcompare htalk hsent newPeerInfoList hreceive

/-- The server below knows the peer at port 2, and hears of the one at port 1. -/
def sampleReply : List PeerInfo := [⟨sampleAddr 1, 5⟩, ⟨sampleAddr 2, 4⟩]

/-- The reply arrives in two parts. -/
def sampleAttempt : DiscoveryAttempt where
  socket := true
  connect := true
  acceptances := sampleAcceptances
  arrivals :=
    [.bytes ⟨(peerListFrame .little sampleReply).take 10, by decide⟩,
      .bytes ⟨(peerListFrame .little sampleReply).drop 10, by decide⟩]
  memory := fun _ => .generous
  heap := fun _ _ => 0
  lock := 0
  unlock := 0
  lockToPrint := 0
  unlockToPrint := 0
  ipStr := fun _ => ""

/-- A client on a big-endian host, without a list, asks a server on a
    little-endian host. -/
theorem discovery_law_sample :
    ∃ discovered handled,
      Talk .big .little ⟨sampleAddr 1, false⟩ [] sampleAttempt
        ⟨1000000, false, some (comparePeerInfo .little)⟩ [⟨0, ⟨sampleAddr 2, 4⟩⟩]
        (samplePeerRequest 1 5) discovered handled ∧
      discovered.ending = .ok () ∧
      discovered.peerInfoList = handled.peerInfoList.map PeerRecord.info ∧
      ∃ peer ∈ discovered.peerInfoList, peer.listenAddr = sampleAddr 1 := by
  have hclient : ∃ discovered,
      discoverPeersOnce .big ⟨sampleAddr 1, false⟩ [] sampleAttempt = some discovered ∧
        discovered.ending = .ok () ∧
        content (samplePeerRequest 1 5).arrivals <+: discovered.sent :=
    ⟨_, rfl, rfl, by decide⟩
  have hserver : ∃ handled,
      handleOnePeerDiscoveryRequest .little ⟨1000000, false, some (comparePeerInfo .little)⟩
        [⟨0, ⟨sampleAddr 2, 4⟩⟩] (samplePeerRequest 1 5) = some handled ∧
        content sampleAttempt.arrivals <+: handled.sent :=
    ⟨_, rfl, by decide⟩
  rcases hclient with ⟨discovered, hrun, hok, htoServer⟩
  rcases hserver with ⟨handled, hhandled, htoClient⟩
  have htalk : Talk .big .little ⟨sampleAddr 1, false⟩ [] sampleAttempt
      ⟨1000000, false, some (comparePeerInfo .little)⟩ [⟨0, ⟨sampleAddr 2, 4⟩⟩]
      (samplePeerRequest 1 5) discovered handled := ⟨hrun, hhandled, htoServer, htoClient⟩
  rcases discovery_law .big ⟨sampleAddr 1, false⟩ [] sampleAttempt with
    ⟨discovered', hrun', _, hlaw⟩
  rw [hrun, Option.some.injEq] at hrun'
  subst hrun'
  rcases hlaw _ _ _ _ handled rfl htalk hok with ⟨hlist, hentry⟩
  exact ⟨discovered, handled, htalk, hok, hlist, hentry (by decide)⟩

end LeoCoin
