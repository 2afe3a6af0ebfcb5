import LeoCoin.Theory.Commands

/-!
# Delivery

A command arrives as it was sent, however it is cut on the way.

The sender hands a frame to `send_all`, and each call of `send` takes part of
it. The receiver takes sixteen bytes, reads the length of the payload out of
them, and takes as many bytes again. What makes this work is that the length in
the header is the length of what follows it. For a command with data the
encoder computes it from the data. For the request to register a peer it is the
size of a structure, and the encoder writes as many bytes, padding included,
though the decoder reads fewer.

`Command` puts the three commands under one roof, so that delivery is one
statement about all of them.

## Main definitions

* `Command`: The commands, with their encoders and decoders.
* `Command.WellFormed`: The prefix and the code are right.
* `Command.sent`: The command as the encoder leaves it.
* `Delivered`: A frame arrives, and nothing of what follows is taken.

## Theorems

* `sendAll_accepted`: A loop that is accepted enough sends everything.
* `frame_received`: A frame is received in two parts.
* `dataCommand_frame`, `command_serialize_frame`: Every frame is its header and
  its payload.
* `command_delivered`: Every command is delivered.
-/

namespace LeoCoin

open Decoder

/-- A loop whose calls accept enough in total sends all its bytes. -/
theorem sendAll_accepted (sizes : List (Fin (2 ^ 31))) (bs : List UInt8)
    (h : bs.length ≤ (sizes.map Fin.val).sum) :
    sendAll bs (sizes.map .accepted) = (some (.ok ()), bs) := by
  induction sizes generalizing bs with
  | nil =>
      rw [List.map_nil, List.sum_nil] at h
      rw [List.eq_nil_of_length_eq_zero (Nat.le_zero.mp h)]
      rfl
  | cons n sizes ih =>
      cases bs with
      | nil => rfl
      | cons b bs =>
          rw [List.map_cons, List.sum_cons] at h
          -- What this call leaves is accepted by the others.
          have hrest := ih ((b :: bs).drop n) (by rw [List.length_drop]; omega)
          rw [List.map_cons, sendAll, hrest]
          exact congrArg _ (List.take_append_drop n (b :: bs))

/-- A frame is received in two parts, and what follows it is left. -/
theorem frame_received (order encoding : ByteOrder) (header : CommandHeader)
    (payload next : List UInt8) (heap : Nat → UInt8)
    (hfront : header.commandPrefix = COMMAND_PREFIX)
    (hlen : header.commandLen.toNat = payload.length) (chunks : List Chunk)
    (h : (chunks.map Subtype.val).flatten = headerBytes encoding header ++ payload ++ next) :
    ∃ (arrivals : List Arrival) (chunks' : List Chunk),
      recvAll sizeofCommandHeader (chunks.map .bytes) =
        some (.ok (headerBytes encoding header), arrivals) ∧
      (commandHeaderDeserialize order (.ofBytes (headerBytes encoding header) heap) .start).1 =
        .ok header ∧
      recvAll header.commandLen.toNat arrivals = some (.ok payload, chunks'.map .bytes) ∧
      (chunks'.map Subtype.val).flatten = next := by
  rw [List.append_assoc] at h
  rcases recvAll_chunks chunks _ _ h with ⟨chunks1, hfirst, hrest⟩
  rw [headerBytes_length] at hfirst
  rcases recvAll_chunks chunks1 _ _ hrest with ⟨chunks2, hsecond, hnext⟩
  refine ⟨chunks1.map .bytes, chunks2, hfirst, ?_, ?_, hnext⟩
  · exact (commandHeaderDeserialize_ok_iff order encoding _
      (Nat.le_of_eq (headerBytes_length encoding header).symm) header).mpr
      ⟨hfront, holds_ofBytes _ heap⟩
  · rw [hlen]
    exact hsecond

/-- The commands of the protocol that carry something. -/
inductive Command where
  | registerPeer (command : CommandRegisterPeer)
  | sendPeerList (command : CommandSendPeerList)
  | sendBlockchain (command : CommandSendBlockchain)

namespace Command

def header : Command → CommandHeader
  | registerPeer command => command.header
  | sendPeerList command => command.header
  | sendBlockchain command => command.header

/-- The code the command should have. -/
def code : Command → UInt32
  | registerPeer _ => COMMAND_REGISTER_PEER
  | sendPeerList _ => COMMAND_SEND_PEER_LIST
  | sendBlockchain _ => COMMAND_SEND_BLOCKCHAIN

/-- The prefix and the code are right. That the data length is the length of
    the data is part of the commands. -/
def WellFormed (command : Command) : Prop :=
  command.header.commandPrefix = COMMAND_PREFIX ∧ command.header.command = command.code

/-- The number of bytes behind the header. -/
def payloadSize : Command → Nat
  | registerPeer _ => sizeofCommandRegisterPeer - sizeofCommandHeader
  | sendPeerList command => 8 + command.data.length
  | sendBlockchain command => 8 + command.blockchainData.length

/-- The header with the size of the payload filled in. -/
def sentHeader (command : Command) : CommandHeader :=
  { command.header with commandLen := UInt64.ofNat command.payloadSize }

/-- The command with the size of the payload filled in. -/
def sent : Command → Command
  | registerPeer command =>
    registerPeer { command with header := (registerPeer command).sentHeader }
  | sendPeerList command =>
    sendPeerList { command with header := (sendPeerList command).sentHeader }
  | sendBlockchain command =>
    sendBlockchain { command with header := (sendBlockchain command).sentHeader }

/-- The encoder of the command, by its kind. -/
def serialize (order : ByteOrder) (alloc : Allocator) :
    Command → Except ReturnCode (List UInt8 × Command)
  | registerPeer command =>
    (commandRegisterPeerSerialize order alloc command).map fun r => (r.1, registerPeer r.2)
  | sendPeerList command =>
    (commandSendPeerListSerialize order alloc command).map fun r => (r.1, sendPeerList r.2)
  | sendBlockchain command =>
    (commandSendBlockchainSerialize order alloc command).map fun r => (r.1, sendBlockchain r.2)

/-- The decoder for commands of the kind of a given one. -/
def deserialize (order : ByteOrder) (alloc : Allocator) (b : Buffer) :
    Command → Except ReturnCode Command
  | registerPeer _ => (commandRegisterPeerDeserialize order b .start).1.map registerPeer
  | sendPeerList _ => (commandSendPeerListDeserialize order alloc b .start).1.map sendPeerList
  | sendBlockchain _ =>
    (commandSendBlockchainDeserialize order alloc b .start).1.map sendBlockchain

end Command

/-- Whatever part of a frame each call of `send` accepts, and however the
    stream is cut for the calls of `recv`, the frame is sent, it is received as
    a header and a payload, the decoder returns the command, and what follows
    the frame is left for the next one. -/
def Delivered (order : ByteOrder) (alloc : Allocator) (frame : List UInt8) (command : Command) :
    Prop :=
  ∀ (sizes : List (Fin (2 ^ 31))) (chunks : List Chunk) (next : List UInt8)
    (heap heap' : Nat → UInt8), frame.length ≤ (sizes.map Fin.val).sum →
    (chunks.map Subtype.val).flatten = (sendAll frame (sizes.map .accepted)).2 ++ next →
    sendAll frame (sizes.map .accepted) = (some (.ok ()), frame) ∧
    ∃ (header payload : List UInt8) (commandHeader : CommandHeader) (arrivals : List Arrival)
      (chunks' : List Chunk),
      recvAll sizeofCommandHeader (chunks.map .bytes) = some (.ok header, arrivals) ∧
      (commandHeaderDeserialize order (.ofBytes header heap) .start).1 = .ok commandHeader ∧
      recvAll commandHeader.commandLen.toNat arrivals = some (.ok payload, chunks'.map .bytes) ∧
      command.deserialize order alloc (.ofBytes (header ++ payload) heap') = .ok command ∧
      (chunks'.map Subtype.val).flatten = next

/-- A command with data is encoded as its header, with the size of the payload,
    and a payload of that size, and is decoded from them. -/
theorem dataCommand_frame (code : UInt32) (encoding order : ByteOrder) (alloc alloc' : Allocator)
    (command : DataCommand) (hfront : command.header.commandPrefix = COMMAND_PREFIX)
    (hcode : command.header.command = code) (hm : alloc.Grants (24 + command.data.length))
    (hm' : alloc'.Grants command.data.length) :
    let header := { command.header with commandLen := UInt64.ofNat (8 + command.data.length) }
    let payload := storeUInt64 encoding (htobe64 encoding command.dataLen) ++ command.data
    dataCommandSerialize code encoding alloc command =
        .ok (headerBytes encoding header ++ payload, { command with header := header }) ∧
      payload.length = 8 + command.data.length ∧
      ∀ heap, (dataCommandDeserialize code order alloc'
        (.ofBytes (headerBytes encoding header ++ payload) heap) .start).1 =
          .ok { command with header := header } := by
  have hlen : (8 : UInt64) + command.dataLen = UInt64.ofNat (8 + command.data.length) := by
    rw [command.length_data, UInt64.ofNat_add, UInt64.ofNat_toNat]
    rfl
  have hser := dataCommandSerialize_ok code encoding alloc command hfront hcode hm
  simp only [hlen] at hser
  refine ⟨hser, ?_, ?_⟩
  · rw [List.length_append, storeUInt64_length]
  · intro heap
    exact dataCommandDeserialize_ok code order encoding alloc' _ _ hfront hcode
      (holds_ofBytes _ heap) (Nat.le_refl _) hm'

/-- The encoder of a well-formed command returns the header, with the size of
    the payload, and a payload of that size, and the decoder of the command
    returns the command for them. -/
theorem command_serialize_frame (encoding order : ByteOrder) (alloc alloc' : Allocator)
    (command : Command) (h : command.WellFormed)
    (hm : alloc.Grants (sizeofCommandHeader + command.payloadSize))
    (hm' : alloc'.Grants command.payloadSize) :
    ∃ payload, command.serialize encoding alloc =
        .ok (headerBytes encoding command.sentHeader ++ payload, command.sent) ∧
      payload.length = command.payloadSize ∧
      ∀ heap, command.sent.deserialize order alloc'
        (.ofBytes (headerBytes encoding command.sentHeader ++ payload) heap) =
          .ok command.sent := by
  rcases h with ⟨hfront, hcode⟩
  cases command with
  | registerPeer command =>
      have hser := commandRegisterPeerSerialize_ok encoding alloc command hfront hcode hm
      refine ⟨sockaddrBytes command.toSockaddrIn6 ++ List.replicate 4 0, ?_, ?_, ?_⟩
      · rw [Command.serialize, hser]
        rfl
      · rw [List.length_append, sockaddrBytes_length, List.length_replicate]
        rfl
      · intro heap
        have hdec := commandRegisterPeerDeserialize_ok order encoding
          (.ofBytes (registerPeerBytes encoding
            { command with header := { command.header with commandLen := 32 } }) heap)
          { command with header := { command.header with commandLen := 32 } } hfront hcode
          (holds_ofBytes _ heap) (Nat.le_of_eq (registerPeerBytes_length encoding _).symm)
        exact congrArg (Except.map Command.registerPeer) hdec
  | sendPeerList command =>
      rcases dataCommand_frame COMMAND_SEND_PEER_LIST encoding order alloc alloc' command hfront
        hcode (hm.mono (by change 24 + _ ≤ 16 + (8 + _); omega))
        (hm'.mono (Nat.le_add_left _ 8)) with ⟨hser, hlen, hdec⟩
      refine ⟨_, ?_, hlen, ?_⟩
      · rw [Command.serialize, commandSendPeerListSerialize, hser]
        rfl
      · intro heap
        exact congrArg (Except.map Command.sendPeerList) (hdec heap)
  | sendBlockchain command =>
      have hframe : 24 + command.blockchainData.length ≤
          sizeofCommandHeader + (Command.sendBlockchain command).payloadSize := by
        change 24 + _ ≤ 16 + (8 + _)
        omega
      rcases dataCommand_frame COMMAND_SEND_BLOCKCHAIN encoding order alloc alloc'
        command.toDataCommand hfront hcode (hm.mono hframe) (hm'.mono (Nat.le_add_left _ 8)) with
        ⟨hser, hlen, hdec⟩
      refine ⟨_, ?_, hlen, ?_⟩
      -- The functions for a chain return what those for data return.
      · rw [Command.serialize, commandSendBlockchainSerialize_eq, hser]
        rfl
      · intro heap
        rw [Command.sent, Command.deserialize, commandSendBlockchainDeserialize_eq]
        exact congrArg (fun r => Except.map Command.sendBlockchain
          (Except.map DataCommand.toSendBlockchain r)) (hdec heap)

/-- Every well-formed command is encoded to a frame that is delivered, between
    hosts of any byte orders, if memory is granted. The frame is as long as the
    length in its header says. -/
theorem command_delivered (encoding order : ByteOrder) (alloc alloc' : Allocator)
    (command : Command) (h : command.WellFormed)
    (hm : alloc.Grants (sizeofCommandHeader + command.payloadSize))
    (hm' : alloc'.Grants command.payloadSize) :
    ∃ frame, command.serialize encoding alloc = .ok (frame, command.sent) ∧
      frame.length = sizeofCommandHeader + command.sent.header.commandLen.toNat ∧
      Delivered order alloc' frame command.sent := by
  rcases command_serialize_frame encoding order alloc alloc' command h hm hm' with
    ⟨payload, hser, hlen, hdec⟩
  have hmax := hm.le_max
  unfold PTRDIFF_MAX at hmax
  have hheader : command.sent.header = command.sentHeader := by
    cases command <;> rfl
  have hpayload : command.sentHeader.commandLen.toNat = payload.length := by
    rw [hlen, Command.sentHeader, UInt64.toNat_ofNat', Nat.mod_eq_of_lt (by omega)]
  refine ⟨_, hser, ?_, ?_⟩
  · rw [List.length_append, headerBytes_length, hheader, hpayload, sizeofCommandHeader]
  · intro sizes chunks next heap heap' hsizes hchunks
    have hsend := sendAll_accepted sizes _ hsizes
    rw [hsend] at hchunks
    rcases frame_received order encoding command.sentHeader payload next heap h.1 hpayload chunks
      hchunks with ⟨arrivals, chunks', hfirst, hdecoded, hsecond, hnext⟩
    exact ⟨hsend, _, payload, _, arrivals, chunks', hfirst, hdecoded, hsecond, hdec heap', hnext⟩

/-- A request to register the peer at port 1 of the address of zeros. -/
def sampleRegisterPeer : CommandRegisterPeer where
  header := { commandPrefix := COMMAND_PREFIX, command := COMMAND_REGISTER_PEER, commandLen := 0 }
  sin6Family := 10
  sin6Port := 1
  sin6Flowinfo := 0
  sin6Addr := Bytes.zero 16
  sin6ScopeId := 0

theorem command_delivered_sample :
    ∃ frame, (Command.registerPeer sampleRegisterPeer).serialize .little .generous =
        .ok (frame, (Command.registerPeer sampleRegisterPeer).sent) ∧
      frame.length = 48 ∧
      Delivered .big .generous frame (Command.registerPeer sampleRegisterPeer).sent :=
  command_delivered .little .big .generous .generous (.registerPeer sampleRegisterPeer)
    ⟨rfl, rfl⟩ (Allocator.generous_grants _ (by decide)) (Allocator.generous_grants _ (by decide))

end LeoCoin
