import LeoCoin.Theory.ReceiveBounds
import LeoCoin.Theory.Validity

/-!
# Consensus

What handling one request does to the published chain.

A request offers a chain if its bytes are a well-formed command holding an
encoded chain. The published chain is replaced exactly if the offered chain is
valid, longer and of the same difficulty, and the new chain is the offered one.
Everything else the handler meets, up to and including the reply, leaves the
published chain alone.

The handler can leave at many points. Those before the verification are the ones
of the general sequence that receives a command, and `receivePeerBlockchain_cases`
reads them off it. `handleOneConsensusRequest_spec` goes through the others. What
follows uses only these.

## Main definitions

* `Undisturbed`: The machine does its part of a request.
* `Offers`: A request holds an encoded chain.
* `Replaces`: The offered chain is to replace the published one.

## Theorems

* `offers_iff`: An offer is an announced length and a payload.
* `receivePeerBlockchain_cases`: What is received is what is offered.
* `handleOneConsensusRequest_spec`: The outcome of a request.
* `handleOneConsensusRequest_sync`: What can be published, in any conditions.
* `handleOneConsensusRequest_law`: Replacement, and the reply.
-/

namespace LeoCoin

open Decoder

/-- The lock is taken, the memory for the payload is granted, and the announced
    length does not exceed what can be allocated. -/
structure Undisturbed (r : Request) : Prop where
  lock : r.lock = 0
  memory : (r.memory .receive).Grants PTRDIFF_MAX
  announced : ∀ header arrivals,
    recvAll sizeofCommandHeader r.arrivals = some (.ok header, arrivals) →
      16 + bigEndianValue (header.drop 8) ≤ PTRDIFF_MAX

/-- A command lies in the received bytes, and a chain in the command. -/
def DecodesTo (order : ByteOrder) (r : Request) (recvBuf : List UInt8) (peer : Blockchain) :
    Prop :=
  ∃ command,
    (commandSendBlockchainDeserialize order (r.memory .frame)
      (.ofBytes recvBuf (r.heap .frame)) .start).1 = .ok command ∧
    (blockchainDeserialize order (r.memory .decode) r.now
      (.ofBytes command.blockchainData (r.heap .decode)) .start).1 = .ok peer

/-- The request has the right prefix and code, is received to its end, and the
    frame and the chain in it are decoded. -/
def Offers (order : ByteOrder) (r : Request) (peer : Blockchain) : Prop :=
  ∃ header payload arrivals arrivals',
    recvAll sizeofCommandHeader r.arrivals = some (.ok header, arrivals) ∧
    header.take 4 = COMMAND_PREFIX.toList ∧
    bigEndianValue ((header.drop 4).take 4) = COMMAND_SEND_BLOCKCHAIN.toNat ∧
    recvAll (bigEndianValue (header.drop 8)) arrivals = some (.ok payload, arrivals') ∧
    DecodesTo order r (header ++ payload) peer

/-- An offer announces a length, and then a payload of that length arrives. -/
theorem offers_iff (order : ByteOrder) (r : Request) (peer : Blockchain) :
    Offers order r peer ↔ ∃ n rest payload rest', Announces .consensus r.arrivals n rest ∧
      recvAll n.toNat rest = some (.ok payload, rest') ∧
      DecodesTo order r (headerImage COMMAND_SEND_BLOCKCHAIN n ++ payload) peer := by
  constructor
  · rintro ⟨header, payload, rest, rest', hhead, hfront, hcode, hpayload, hdecodes⟩
    rcases exists_headerImage _ header (recvAll_length _ _ _ _ hhead) hfront hcode with ⟨n, rfl⟩
    rw [headerImage_commandLen] at hpayload
    exact ⟨n, rest, payload, rest', hhead, hpayload, hdecodes⟩
  · rintro ⟨n, rest, payload, rest', hann, hpayload, hdecodes⟩
    refine ⟨_, payload, rest, rest', hann, headerImage_take _ _, headerImage_command _ _, ?_,
      hdecodes⟩
    rw [headerImage_commandLen]
    exact hpayload

/-- An offer behind an announced length is a payload of that length. -/
theorem offers_iff_of_announces (order : ByteOrder) (r : Request) (peer : Blockchain) (n : UInt64)
    (rest : List Arrival) (hann : Announces .consensus r.arrivals n rest) :
    Offers order r peer ↔ ∃ payload rest', recvAll n.toNat rest = some (.ok payload, rest') ∧
      DecodesTo order r (headerImage COMMAND_SEND_BLOCKCHAIN n ++ payload) peer := by
  rw [offers_iff]
  constructor
  · rintro ⟨n', rest', payload, left, hann', hpayload, hdecodes⟩
    rcases announces_unique hann hann' with ⟨rfl, rfl⟩
    exact ⟨payload, left, hpayload, hdecodes⟩
  · rintro ⟨payload, left, hpayload, hdecodes⟩
    exact ⟨n, rest, payload, left, hann, hpayload, hdecodes⟩

/-- Decoding has one outcome: an error and then no chain lies in the bytes, or
    the one chain that does. -/
theorem decodePeerBlockchain_cases (order : ByteOrder) (r : Request) (recvBuf : List UInt8) :
    (∃ interruption, decodePeerBlockchain order r recvBuf = .error interruption ∧
      ∀ peer, ¬ DecodesTo order r recvBuf peer) ∨
    (∃ command peer, decodePeerBlockchain order r recvBuf = .ok (command, peer) ∧
      command.header.command = COMMAND_SEND_BLOCKCHAIN ∧
      command.header.commandPrefix = COMMAND_PREFIX ∧
      ∀ other, DecodesTo order r recvBuf other ↔ other = peer) := by
  unfold decodePeerBlockchain
  rcases hcmd : (commandSendBlockchainDeserialize order (r.memory .frame)
    (.ofBytes recvBuf (r.heap .frame)) .start).1 with code | command
  · refine Or.inl ⟨_, rfl, ?_⟩
    rintro peer ⟨command, h1, _⟩
    rw [hcmd] at h1
    exact absurd h1 (by simp only [reduceCtorEq, not_false_eq_true])
  simp only []
  rcases hdec : (blockchainDeserialize order (r.memory .decode) r.now
    (.ofBytes command.blockchainData (r.heap .decode)) .start).1 with code | peer
  · refine Or.inl ⟨_, rfl, ?_⟩
    rintro peer ⟨command', h1, h2⟩
    rw [hcmd, Except.ok.injEq] at h1
    rw [← h1, hdec] at h2
    exact absurd h2 (by simp only [reduceCtorEq, not_false_eq_true])
  · -- The frame decoder vouches for the header of what it returns.
    rcases wp_ok (wp_commandSendBlockchainDeserialize order (r.memory .frame) _) hcmd with
      ⟨rfl, hpre, hsend⟩
    refine Or.inr ⟨_, peer, rfl, hsend, hpre, fun other => ⟨?_, ?_⟩⟩
    · rintro ⟨command', h1, h2⟩
      rw [hcmd, Except.ok.injEq] at h1
      rw [← h1, hdec, Except.ok.injEq] at h2
      exact h2.symm
    · rintro rfl
      exact ⟨_, hcmd, hdec⟩

/-- Undisturbed, receiving has an outcome: it ends without a chain and then none
    was offered, or with the one chain that was. A received command keeps the
    prefix and the code for the reply. -/
theorem receivePeerBlockchain_cases (order : ByteOrder) (r : Request) (h : Undisturbed r) :
    (∃ interruption, receivePeerBlockchain order r = some (.error interruption) ∧
      ∀ peer, ¬ Offers order r peer) ∨
    (∃ command peer, receivePeerBlockchain order r = some (.ok (command, peer)) ∧
      command.header.command = COMMAND_SEND_BLOCKCHAIN ∧
      command.header.commandPrefix = COMMAND_PREFIX ∧
      ∀ other, Offers order r other ↔ other = peer) := by
  have h0 : (r.memory .receive).grants 0 sizeofCommandHeader = true := h.memory _ _ (by decide)
  rw [receivePeerBlockchain_eq]
  rcases receiveCommand_or_announces .consensus order (r.memory .receive) (r.heap .receive)
    r.arrivals with ⟨interruption, hstop⟩ | ⟨_, n, rest, hann⟩
  · refine Or.inl ⟨interruption, ?_, ?_⟩
    · simp only [hstop, reduceCtorEq, false_and, exists_false, if_false]
      rfl
    · -- Behind an announced length the loop would have been called again.
      intro peer hoffer
      rcases (offers_iff order r peer).mp hoffer with ⟨n, rest, _, _, hann, _⟩
      have hcall := (receiveCommand_call_iff .consensus order _ (r.heap .receive) _ _).mpr
        ⟨n, rest, h0, hann, fun hlook => Bool.false_ne_true hlook.1, rfl⟩
      rw [hstop] at hcall
      exact absurd hcall (by simp only [reduceCtorEq, not_false_eq_true])
  have hannounced := h.announced _ _ hann
  rw [headerImage_commandLen] at hannounced
  -- The announced length neither wraps nor exceeds what is granted.
  have hfit : 16 + n.toNat < 2 ^ 64 := by
    unfold PTRDIFF_MAX at hannounced
    omega
  have hsum : (16 + n).toNat = 16 + n.toNat :=
    (UInt64.toNat_add 16 n).trans (Nat.mod_eq_of_lt hfit)
  have hreal : (r.memory .receive).grants 1 (16 + n).toNat = true :=
    h.memory _ _ (hsum ▸ hannounced)
  have hinside := (secondCall_inside_iff (r.memory .receive) n).mpr ⟨hreal, hfit⟩
  have hlook : ¬ (Receiver.checksRealloc .consensus = true ∧
      ¬ (r.memory .receive).grants 1 (16 + n).toNat = true) := fun hlook => hlook.2 hreal
  rw [receiveCommand_of_announces .consensus order _ (r.heap .receive) _ _ _ h0 hann]
  simp only [receivePayload_call, if_neg hlook, Option.some.injEq, exists_eq_left', hinside,
    not_true_eq_false, if_false]
  unfold receivePayload
  simp only [if_neg hlook, if_neg (not_not.mpr hreal)]
  have hoffer := fun peer => offers_iff_of_announces order r peer n rest hann
  rcases hpayload : recvAll n.toNat rest with _ | ⟨code | payload, rest'⟩
  · refine Or.inl ⟨_, rfl, ?_⟩
    intro peer
    simp only [hoffer, hpayload, reduceCtorEq, false_and, exists_false, not_false_eq_true]
  · refine Or.inl ⟨_, rfl, ?_⟩
    intro peer
    simp only [hoffer, hpayload, Option.some.injEq, Prod.mk.injEq, reduceCtorEq, false_and,
      exists_false, not_false_eq_true]
  have hdecodes : ∀ peer, Offers order r peer ↔
      DecodesTo order r (headerImage COMMAND_SEND_BLOCKCHAIN n ++ payload) peer := by
    intro peer
    simp only [hoffer, hpayload, Option.some.injEq, Prod.mk.injEq, Except.ok.injEq, and_assoc,
      exists_eq_left', exists_and_left]
  simp only [Option.map_some, Except.bind]
  rcases decodePeerBlockchain_cases order r (headerImage COMMAND_SEND_BLOCKCHAIN n ++ payload) with
    ⟨interruption, hdec, hnone⟩ | ⟨command, peer, hdec, hsend, hpre, hone⟩
  · exact Or.inl ⟨interruption, by rw [← hdec]; rfl,
      fun peer ho => hnone peer ((hdecodes peer).mp ho)⟩
  · exact Or.inr ⟨command, peer, by rw [← hdec]; rfl, hsend, hpre,
      fun other => (hdecodes other).trans (hone other)⟩

/-- The offered chain is to replace the published one: it is valid, longer and
    of the same difficulty. -/
structure Replaces (host : Host) (sync : SynchronizedBlockchain) (r : Request)
    (peer : Blockchain) : Prop where
  offered : Offers host.byteOrder r peer
  valid : ReportsValid host peer
  longer : sync.blockchain.blockList.length < peer.blockList.length
  difficulty : sync.blockchain.numLeadingZeroBytesRequiredInBlockHash =
    peer.numLeadingZeroBytesRequiredInBlockHash

theorem switchesToPeerBlockchain_iff (ours peer : Blockchain) (isValid : Bool) :
    switchesToPeerBlockchain ours peer isValid = true ↔
      isValid ∧ ours.blockList.length < peer.blockList.length ∧
        ours.numLeadingZeroBytesRequiredInBlockHash =
          peer.numLeadingZeroBytesRequiredInBlockHash := by
  unfold switchesToPeerBlockchain linkedListLength
  simp only [gt_iff_lt, Bool.and_eq_true, decide_eq_true_eq, beq_iff_eq]

/-- The decision under the lock. -/
theorem considerPeerBlockchain_fst (printProgress : Bool) (sync : SynchronizedBlockchain)
    (peer : Blockchain) (isValid : Bool) :
    (considerPeerBlockchain printProgress sync peer isValid).1 =
      if isValid ∧ sync.blockchain.blockList.length < peer.blockList.length ∧
          sync.blockchain.numLeadingZeroBytesRequiredInBlockHash =
            peer.numLeadingZeroBytesRequiredInBlockHash then
        ⟨peer, sync.version + 1⟩
      else sync := by
  unfold considerPeerBlockchain
  simp only [switchesToPeerBlockchain_iff]
  split <;> rfl

/-- The sent bytes are a frame around an encoded chain. -/
def Carries (order : ByteOrder) (sent : List UInt8) (c : Blockchain) : Prop :=
  ∃ header data, header.command = COMMAND_SEND_BLOCKCHAIN ∧
    header.commandPrefix = COMMAND_PREFIX ∧
    SerializationBuffer.bytes data = blockchainBytes order c ∧
    sent = frameBytes order header data

/-- The reply leaves the published chain alone, and if it succeeds it carries
    that chain. -/
theorem replyWithBlockchain_spec (order : ByteOrder) (r : Request)
    (command : CommandSendBlockchain) (sync : SynchronizedBlockchain) (printed : List String) :
    (replyWithBlockchain order r command sync printed).sync = sync ∧
      ((replyWithBlockchain order r command sync printed).ending = .ok () →
        Carries order (replyWithBlockchain order r command sync printed).sent
          sync.blockchain) := by
  unfold replyWithBlockchain
  rcases hser : blockchainSerialize order (r.memory .encode) 0 sync.blockchain with code | buffer
  · exact ⟨rfl, fun h => absurd h (by simp only [reduceCtorEq, not_false_eq_true])⟩
  simp only []
  by_cases hunlock : r.unlock = 0
  swap
  · rw [if_pos hunlock]
    exact ⟨rfl, fun h => absurd h (by simp only [reduceCtorEq, not_false_eq_true])⟩
  rw [if_neg (not_not_intro hunlock)]
  rcases hframe : commandSendBlockchainSerialize order (r.memory .reply)
    ⟨command.header, buffer.size, buffer.bytes, buffer.bytes_length⟩ with code | ⟨sendBuf, command'⟩
  · exact ⟨rfl, fun h => absurd h (by simp only [reduceCtorEq, not_false_eq_true])⟩
  simp only []
  rcases hsend : sendAll sendBuf r.acceptances with ⟨_ | code | _, sent⟩
  · exact ⟨rfl, fun h => absurd h (by simp only [reduceCtorEq, not_false_eq_true])⟩
  · exact ⟨rfl, fun h => absurd h (by simp only [reduceCtorEq, not_false_eq_true])⟩
  · refine ⟨rfl, ?_⟩
    intro _
    rcases bytes_of_commandSendBlockchainSerialize order (r.memory .reply) command.header buffer
      sendBuf command' hframe with ⟨hcommand, hfront, hbytes⟩
    exact ⟨{ command.header with commandLen := 8 + buffer.size }, buffer, hcommand, hfront,
      bytes_of_blockchainSerialize order _ 0 _ buffer hser,
      (sendAll_success _ _ _ hsend).trans hbytes⟩

/-- The outcome of a request: either the offered chain replaces the published
    one, or nothing is to replace it and nothing changes. -/
theorem handleOneConsensusRequest_spec (host : Host) (printProgress : Bool)
    (sync : SynchronizedBlockchain) (r : Request) (h : Undisturbed r) :
    ∃ out, handleOneConsensusRequest host printProgress sync r = some out ∧
      ((∃ peer, Replaces host sync r peer ∧ out.sync = ⟨peer, sync.version + 1⟩) ∨
        ((∀ peer, ¬ Replaces host sync r peer) ∧ out.sync = sync)) ∧
      (out.ending = .ok () → Carries host.byteOrder out.sent out.sync.blockchain) := by
  have hfailed : ∀ e : Interruption, (Except.error e : Except Interruption Unit) ≠ .ok () :=
    fun e he => absurd he (by simp only [reduceCtorEq, not_false_eq_true])
  unfold handleOneConsensusRequest
  rcases receivePeerBlockchain_cases host.byteOrder r h with
    ⟨interruption, hrecv, hnone⟩ | ⟨command, peer, hrecv, _, _, hone⟩
  · rw [hrecv]
    exact ⟨_, rfl, Or.inr ⟨fun peer hr => hnone peer hr.offered, rfl⟩,
      fun he => absurd he (hfailed _)⟩
  rw [hrecv]
  simp only []
  rcases hverify : blockchainVerify host peer with code | verdict
  · -- A chain that cannot be verified is not reported valid.
    refine ⟨_, rfl, Or.inr ⟨?_, rfl⟩, fun he => absurd he (hfailed _)⟩
    intro other hr
    rcases hr.valid with ⟨v, hv, _⟩
    rw [(hone other).mp hr.offered, hverify] at hv
    exact absurd hv (by simp only [reduceCtorEq, not_false_eq_true])
  simp only [h.lock, ne_eq, not_true_eq_false, if_false]
  rcases replyWithBlockchain_spec host.byteOrder r command
    (considerPeerBlockchain printProgress sync peer verdict.isValidBlockchain).1
    ((if ¬ verdict.isValidBlockchain = true ∧ printProgress = true then
      ["Server received invalid blockchain\n"] else []) ++
      (considerPeerBlockchain printProgress sync peer verdict.isValidBlockchain).2)
    with ⟨hsync, hreply⟩
  refine ⟨_, rfl, ?_, fun he => by rw [hsync]; exact hreply he⟩
  rw [hsync, considerPeerBlockchain_fst]
  -- The verdict the handler acts on is the one the verifier reports.
  have hvalid : ReportsValid host peer ↔ verdict.isValidBlockchain = true := by
    unfold ReportsValid
    rw [hverify]
    simp only [Except.ok.injEq, exists_eq_left']
  by_cases hswitch : verdict.isValidBlockchain = true ∧
      sync.blockchain.blockList.length < peer.blockList.length ∧
      sync.blockchain.numLeadingZeroBytesRequiredInBlockHash =
        peer.numLeadingZeroBytesRequiredInBlockHash
  · rw [if_pos hswitch]
    exact Or.inl ⟨peer, ⟨(hone peer).mpr rfl, hvalid.mpr hswitch.1, hswitch.2.1, hswitch.2.2⟩, rfl⟩
  · rw [if_neg hswitch]
    refine Or.inr ⟨fun other hr => hswitch ?_, rfl⟩
    -- Any chain that is to replace the published one is the chain decoded.
    have heq := (hone other).mp hr.offered
    rw [heq] at hr
    exact ⟨hvalid.mp hr.valid, hr.longer, hr.difficulty⟩

/-- Whatever a request meets, if it has an outcome then the published chain is
    kept, or replaced by a valid, longer one of the same difficulty. -/
theorem handleOneConsensusRequest_sync (host : Host) (printProgress : Bool)
    (sync : SynchronizedBlockchain) (r : Request) (out : Handled)
    (h : handleOneConsensusRequest host printProgress sync r = some out) :
    out.sync = sync ∨ ∃ peer, ReportsValid host peer ∧
      sync.blockchain.blockList.length < peer.blockList.length ∧
      sync.blockchain.numLeadingZeroBytesRequiredInBlockHash =
        peer.numLeadingZeroBytesRequiredInBlockHash ∧
      out.sync = ⟨peer, sync.version + 1⟩ := by
  unfold handleOneConsensusRequest at h
  rcases hrecv : receivePeerBlockchain host.byteOrder r with
    _ | ⟨interruption | ⟨command, peer⟩⟩
  · simp only [hrecv, reduceCtorEq] at h
  · simp only [hrecv, Option.some.injEq] at h
    rw [← h]
    exact Or.inl rfl
  simp only [hrecv] at h
  rcases hverify : blockchainVerify host peer with code | verdict
  · simp only [hverify, Option.some.injEq] at h
    rw [← h]
    exact Or.inl rfl
  simp only [hverify] at h
  by_cases hlock : r.lock = 0
  swap
  · rw [if_pos hlock, Option.some.injEq] at h
    rw [← h]
    exact Or.inl rfl
  rw [if_neg (not_not_intro hlock), Option.some.injEq] at h
  rw [← h, (replyWithBlockchain_spec _ _ _ _ _).1, considerPeerBlockchain_fst]
  by_cases hswitch : verdict.isValidBlockchain = true ∧
      sync.blockchain.blockList.length < peer.blockList.length ∧
      sync.blockchain.numLeadingZeroBytesRequiredInBlockHash =
        peer.numLeadingZeroBytesRequiredInBlockHash
  · rw [if_pos hswitch]
    exact Or.inr ⟨peer, ⟨verdict, hverify, hswitch.1⟩, hswitch.2.1, hswitch.2.2, rfl⟩
  · rw [if_neg hswitch]
    exact Or.inl rfl

/-- A request offers at most one chain. -/
theorem Offers.unique {order : ByteOrder} {r : Request} {peer other : Blockchain}
    (h1 : Offers order r peer) (h : Undisturbed r) (h2 : Offers order r other) :
    other = peer := by
  rcases receivePeerBlockchain_cases order r h with ⟨_, _, hnone⟩ | ⟨_, c, _, _, _, hone⟩
  · exact absurd h1 (hnone peer)
  · rw [(hone peer).mp h1, (hone other).mp h2]

/-- What a frame around an encoded chain carries is decoded to the chain, on a
    host of either byte order. -/
theorem Carries.decodes {encoding : ByteOrder} {sent : List UInt8} {c : Blockchain}
    (h : Carries encoding sent c) (hsig : SignaturesFit c) (order : ByteOrder)
    (frame decode : Allocator) (now : Int64) (behindFrame behindData : Nat → UInt8)
    (hframe : frame.Grants PTRDIFF_MAX) (hdecode : decode.Grants PTRDIFF_MAX) :
    ∃ command, (commandSendBlockchainDeserialize order frame
        (.ofBytes sent behindFrame) .start).1 = .ok command ∧
      (blockchainDeserialize order decode now
        (.ofBytes command.blockchainData behindData) .start).1 = .ok c := by
  rcases h with ⟨header, data, hcommand, hfront, hbytes, hsent⟩
  rcases commandSendBlockchainDeserialize_ok order encoding frame (.ofBytes sent behindFrame)
    header data hcommand hfront (hsent ▸ holds_ofBytes sent behindFrame) (hsent ▸ rfl)
    (hframe.mono data.size_le) with ⟨command, hrun, _, hdata⟩
  refine ⟨command, hrun, ?_⟩
  rw [hdata, hbytes]
  refine blockchainDeserialize_ok order encoding decode now _ c rfl ?_ (holds_ofBytes _ _) hsig
    (hdecode.mono (by decide))
  -- The data fit into the buffer they were sent in.
  change (blockchainBytes encoding c).length ≤ PTRDIFF_MAX
  rw [← hbytes, data.bytes_length]
  exact data.size_le

/-- A request from a stream without errors, on a machine that does its part. -/
def deliver (chunks : List Chunk) : Request where
  arrivals := chunks.map .bytes
  acceptances := [.accepted 1000000]
  memory _ := .generous
  heap _ _ := 0
  now := 0
  lock := 0
  unlock := 0

/-- A frame around an encoded chain, with the payload size in its header, is a
    request that offers the chain, however the stream is cut. -/
theorem deliver_offers (order encoding : ByteOrder) (chunks : List Chunk)
    (header : CommandHeader) (data : SerializationBuffer) (c : Blockchain)
    (hcommand : header.command = COMMAND_SEND_BLOCKCHAIN)
    (hfront : header.commandPrefix = COMMAND_PREFIX)
    (hlen : header.commandLen.toNat = 8 + data.size.toNat)
    (hbytes : data.bytes = blockchainBytes encoding c) (hsig : SignaturesFit c)
    (hsmall : 24 + data.size.toNat ≤ PTRDIFF_MAX)
    (hstream : (chunks.map Subtype.val).flatten = frameBytes encoding header data) :
    Undisturbed (deliver chunks) ∧ Offers order (deliver chunks) c := by
  have hcarries : Carries encoding (frameBytes encoding header data) c :=
    ⟨header, data, hcommand, hfront, hbytes, rfl⟩
  -- The header is received first, then the rest of the frame.
  rw [frameBytes_split, headerBytes_eq_headerImage encoding header hfront, hcommand]
    at hstream hcarries
  rcases recvAll_chunks chunks _ _ hstream with ⟨chunks', hhead, hrest⟩
  rw [headerImage_length] at hhead
  rw [← List.append_nil (storeUInt64 encoding (htobe64 encoding data.size) ++ data.bytes)] at hrest
  rcases recvAll_chunks chunks' _ _ hrest with ⟨chunks'', hpayload, _⟩
  refine ⟨⟨rfl, Allocator.generous_grants _ (Nat.le_refl _), ?_⟩, ?_⟩
  · intro bs arrivals h
    have heq := h.symm.trans hhead
    rw [Option.some.injEq, Prod.mk.injEq, Except.ok.injEq] at heq
    rw [heq.1, headerImage_commandLen, hlen]
    omega
  · refine (offers_iff order (deliver chunks) c).mpr ⟨header.commandLen, chunks'.map .bytes,
      storeUInt64 encoding (htobe64 encoding data.size) ++ data.bytes, chunks''.map .bytes, hhead,
      ?_, ?_⟩
    -- The second loop asks for as many bytes as the header announces.
    · rw [hlen, ← hpayload, List.length_append, storeUInt64_length, data.bytes_length]
    · exact hcarries.decodes hsig order .generous .generous 0 _ _
        (Allocator.generous_grants _ (Nat.le_refl _)) (Allocator.generous_grants _ (Nat.le_refl _))

theorem ofNat_length_small (c : Blockchain) (h : (blockchainBytes .little c).length < 2 ^ 30) :
    (UInt64.ofNat (blockchainBytes .little c).length).toNat =
      (blockchainBytes .little c).length := by
  rw [UInt64.toNat_ofNat']
  exact Nat.mod_eq_of_lt (Nat.lt_trans h (by decide))

theorem ofNat_length_le (c : Blockchain) (h : (blockchainBytes .little c).length < 2 ^ 30) :
    (UInt64.ofNat (blockchainBytes .little c).length).toNat ≤ PTRDIFF_MAX := by
  rw [ofNat_length_small c h]
  exact Nat.le_of_lt (Nat.lt_trans h (by decide))

/-- The buffer an encoder on a little endian host returns for a chain. -/
def encodedChain (c : Blockchain) (h : (blockchainBytes .little c).length < 2 ^ 30) :
    SerializationBuffer where
  bytes := blockchainBytes .little c
  size := UInt64.ofNat (blockchainBytes .little c).length
  calls := 0
  bytes_length := (ofNat_length_small c h).symm
  size_le := ofNat_length_le c h

/-- The header of a frame around an encoded chain. -/
def chainHeader (data : SerializationBuffer) : CommandHeader where
  commandPrefix := COMMAND_PREFIX
  command := COMMAND_SEND_BLOCKCHAIN
  commandLen := 8 + data.size

/-- The request that a peer with the given chain makes, in one piece. -/
def sampleRequest (c : Blockchain) (h : (blockchainBytes .little c).length < 2 ^ 30) : Request :=
  deliver [⟨frameBytes .little (chainHeader (encodedChain c h)) (encodedChain c h), by
    rw [frameBytes_length, ← (encodedChain c h).bytes_length]
    change 24 + (blockchainBytes .little c).length < 2 ^ 31
    omega⟩]

theorem sampleRequest_offers (order : ByteOrder) (c : Blockchain)
    (h : (blockchainBytes .little c).length < 2 ^ 30) (hsig : SignaturesFit c) :
    Undisturbed (sampleRequest c h) ∧ Offers order (sampleRequest c h) c := by
  have hsize : (encodedChain c h).size.toNat < 2 ^ 30 := by
    rw [← (encodedChain c h).bytes_length]
    exact h
  refine deliver_offers order .little _ (chainHeader (encodedChain c h)) (encodedChain c h) c rfl
    rfl ?_ rfl hsig ?_ (List.flatten_singleton)
  · change (8 + (encodedChain c h).size).toNat = _
    rw [UInt64.toNat_add]
    exact Nat.mod_eq_of_lt (by change 8 + _ < 2 ^ 64; omega)
  · unfold PTRDIFF_MAX
    omega

/-- Handling one request: the published chain is replaced exactly if the
    request offers a valid, strictly longer chain of the same difficulty. Then
    the offered chain is published and the version grows by one; otherwise both
    stay. What happens to the reply has no influence. If the handler returns
    `SUCCESS`, what it sent is decoded, on a host of either byte order, to the
    chain published after the request. -/
theorem handleOneConsensusRequest_law (host : Host) (printProgress : Bool)
    (sync : SynchronizedBlockchain) (r : Request) (h : Undisturbed r)
    (hours : SignaturesFit sync.blockchain)
    (hpeer : ∀ peer, Offers host.byteOrder r peer → SignaturesFit peer) :
    ∃ out, handleOneConsensusRequest host printProgress sync r = some out ∧
      (out.sync ≠ sync ↔ ∃ peer, Replaces host sync r peer) ∧
      (∀ peer, Replaces host sync r peer → out.sync = ⟨peer, sync.version + 1⟩) ∧
      (out.ending = .ok () →
        ∀ (order : ByteOrder) (frame decode : Allocator) (now : Int64)
          (behindFrame behindData : Nat → UInt8),
          frame.Grants PTRDIFF_MAX → decode.Grants PTRDIFF_MAX →
          ∃ command, (commandSendBlockchainDeserialize order frame
              (.ofBytes out.sent behindFrame) .start).1 = .ok command ∧
            (blockchainDeserialize order decode now
              (.ofBytes command.blockchainData behindData) .start).1 =
                .ok out.sync.blockchain) := by
  rcases handleOneConsensusRequest_spec host printProgress sync r h with
    ⟨out, hout, hsync, hreply⟩
  refine ⟨out, hout, ⟨?_, ?_⟩, ?_, ?_⟩
  · intro hne
    rcases hsync with ⟨peer, hr, _⟩ | ⟨_, heq⟩
    · exact ⟨peer, hr⟩
    · exact absurd heq hne
  · rintro ⟨peer, hr⟩ heq
    rcases hsync with ⟨other, ho, hnew⟩ | ⟨hnone, _⟩
    · -- The new chain is longer, so it is not the old one.
      have hlonger := ho.longer
      rw [heq.symm.trans hnew] at hlonger
      exact absurd hlonger (Nat.lt_irrefl _)
    · exact hnone peer hr
  · intro peer hr
    rcases hsync with ⟨other, ho, hnew⟩ | ⟨hnone, _⟩
    · rw [hnew, ho.offered.unique h hr.offered]
    · exact absurd hr (hnone peer)
  -- The chain published after the request is one of the two that fit.
  · intro hsuccess order frame decode now behindFrame behindData hframe hdecode
    have hfit : SignaturesFit out.sync.blockchain := by
      rcases hsync with ⟨peer, hr, hnew⟩ | ⟨_, hsame⟩
      · rw [hnew]
        exact hpeer peer hr.offered
      · rw [hsame]
        exact hours
    exact (hreply hsuccess).decodes hfit order frame decode now behindFrame behindData hframe
      hdecode

/-- The sample chain without its last block. -/
def sampleStart : SynchronizedBlockchain := ⟨⟨[sampleGenesis], 2⟩, 0⟩

/-- The sample chain. -/
def sampleChain : Blockchain := ⟨[sampleGenesis, sampleSuccessor sampleGenesis], 2⟩

theorem sampleChain_small : (blockchainBytes .little sampleChain).length < 2 ^ 30 := by
  rw [blockchainBytes_length]
  decide

theorem sampleChain_signaturesFit : SignaturesFit sampleChain := by
  intro x hx t ht
  rcases List.mem_pair.mp hx with rfl | rfl
  · exact absurd ht List.not_mem_nil
  · rw [List.mem_singleton.mp ht]
    decide

theorem sampleStart_signaturesFit : SignaturesFit sampleStart.blockchain := by
  intro x hx t ht
  rw [List.mem_singleton.mp hx] at ht
  exact absurd ht List.not_mem_nil

/-- The sample chain is to replace the genesis block. -/
theorem sampleRequest_replaces :
    Undisturbed (sampleRequest sampleChain sampleChain_small) ∧
      Replaces sampleHost sampleStart (sampleRequest sampleChain sampleChain_small)
        sampleChain := by
  rcases sampleRequest_offers .little sampleChain sampleChain_small sampleChain_signaturesFit with
    ⟨hundisturbed, hoffers⟩
  exact ⟨hundisturbed, hoffers, sampleChain_reportsValid 2 (by decide), by decide, rfl⟩

/-- A node that has mined nothing receives the sample chain and publishes it. -/
theorem handleOneConsensusRequest_law_sample :
    ∃ out, handleOneConsensusRequest sampleHost false sampleStart
        (sampleRequest sampleChain sampleChain_small) = some out ∧
      out.sync = ⟨sampleChain, 1⟩ := by
  rcases sampleRequest_replaces with ⟨hundisturbed, hreplaces⟩
  rcases handleOneConsensusRequest_law sampleHost false sampleStart _ hundisturbed
    sampleStart_signaturesFit (fun peer hp =>
      hreplaces.offered.unique hundisturbed hp ▸ sampleChain_signaturesFit) with
    ⟨out, hout, _, hnew, _⟩
  exact ⟨out, hout, hnew sampleChain hreplaces⟩

end LeoCoin
