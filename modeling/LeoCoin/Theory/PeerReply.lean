import LeoCoin.Core.PeerDiscoveryBootstrapServer
import LeoCoin.Theory.PeerList
import LeoCoin.Theory.Receipt

/-!
# Peer Reply

The frame that carries the table, and what can be read out of it.

The server encodes the table, puts the encoding into a command, and sends the
frame of that command. A failure before the first byte means that nothing is
sent, and later ones cut the frame off. Whoever gets the whole frame can decode
the list in it, whatever the byte order.

## Main definitions

* `peerListFrame`: The frame of an encoded list.
* `CarriesPeerList`: Bytes from which a list is decoded.

## Theorems

* `peerListFrame_split`: The frame is a header and a payload.
* `peerListFrame_carries`: The list is decoded from its frame.
* `peerListFrame_decoded`: Nothing else is.
* `replyWithPeerList_cases`: What the server sends.
* `replyWithPeerList_ok`: It sends the frame if nothing fails.
-/

namespace LeoCoin

open Decoder SerializationBuffer

/-- The frame of an encoded list. -/
def peerListFrame (encoding : ByteOrder) (peerInfoList : List PeerInfo) : List UInt8 :=
  let data := peerInfoListBytes encoding peerInfoList
  headerImage COMMAND_SEND_PEER_LIST (8 + UInt64.ofNat data.length) ++
    (bigEndian 8 (UInt64.ofNat data.length).toNat ++ data)

/-- Decoding the bytes as a command and the data in it as a list gives the
    list, on a host of any byte order, if the memory for it is granted. -/
def CarriesPeerList (bs : List UInt8) (peerInfoList : List PeerInfo) : Prop :=
  ∀ (order : ByteOrder) (frame decode : Allocator) (heap heap' : Nat → UInt8),
    frame.Grants bs.length → decode.Grants sizeofPeerInfo →
    ∃ command,
      (commandSendPeerListDeserialize order frame (.ofBytes bs heap) .start).1 = .ok command ∧
      (peerInfoListDeserialize order decode (.ofBytes command.data heap') .start).1 =
        .ok peerInfoList

/-- The command whose frame is sent for an encoding. -/
def peerListCommand (buffer : SerializationBuffer) : CommandSendPeerList where
  header :=
    { commandPrefix := COMMAND_PREFIX
      command := COMMAND_SEND_PEER_LIST
      commandLen := 8 + buffer.size }
  dataLen := buffer.size
  data := buffer.bytes
  length_data := buffer.bytes_length

/-- The size of an encoding is its length. -/
theorem size_eq_ofNat_length (buffer : SerializationBuffer) :
    buffer.size = UInt64.ofNat buffer.bytes.length := by
  rw [buffer.bytes_length, UInt64.ofNat_toNat]

/-- The frame of an encoding is the encoding of the command that is sent. -/
theorem dataCommandBytes_peerListCommand (encoding : ByteOrder) (peerInfoList : List PeerInfo)
    (buffer : SerializationBuffer)
    (h : buffer.bytes = peerInfoListBytes encoding peerInfoList) :
    dataCommandBytes encoding (peerListCommand buffer) = peerListFrame encoding peerInfoList := by
  rw [dataCommandBytes, headerBytes_eq_headerImage encoding _ rfl, storeUInt64_htobe64]
  simp only [peerListCommand, peerListFrame, size_eq_ofNat_length, h]

/-- The frame is a header and as many bytes as it announces. -/
theorem peerListFrame_split (encoding : ByteOrder) (peerInfoList : List PeerInfo)
    (hsmall : (peerInfoListBytes encoding peerInfoList).length ≤ PTRDIFF_MAX) :
    ∃ n payload, peerListFrame encoding peerInfoList =
        headerImage COMMAND_SEND_PEER_LIST n ++ payload ∧
      payload.length = n.toNat ∧ (16 + n).toNat = (peerListFrame encoding peerInfoList).length := by
  refine ⟨_, _, rfl, ?_⟩
  unfold PTRDIFF_MAX at hsmall
  have hn : (8 + UInt64.ofNat (peerInfoListBytes encoding peerInfoList).length).toNat =
      8 + (peerInfoListBytes encoding peerInfoList).length := by
    rw [UInt64.toNat_add, UInt64.toNat_ofNat',
      Nat.mod_eq_of_lt (show (peerInfoListBytes encoding peerInfoList).length < 2 ^ 64 by omega)]
    change (8 + _) % 2 ^ 64 = _
    omega
  have hlen : (bigEndian 8 (UInt64.ofNat
      (peerInfoListBytes encoding peerInfoList).length).toNat ++
        peerInfoListBytes encoding peerInfoList).length =
      8 + (peerInfoListBytes encoding peerInfoList).length := by
    rw [List.length_append, bigEndian_length]
  refine ⟨hlen.trans hn.symm, ?_⟩
  rw [peerListFrame, List.length_append, headerImage_length, hlen, UInt64.toNat_add, hn]
  change (16 + _) % 2 ^ 64 = _
  omega

/-- The list is decoded from its frame. -/
theorem peerListFrame_carries (encoding : ByteOrder) (peerInfoList : List PeerInfo)
    (buffer : SerializationBuffer)
    (h : buffer.bytes = peerInfoListBytes encoding peerInfoList) :
    CarriesPeerList (peerListFrame encoding peerInfoList) peerInfoList := by
  intro order frame decode heap heap' hframe hdecode
  rw [← dataCommandBytes_peerListCommand encoding peerInfoList buffer h] at hframe ⊢
  have hsize : buffer.bytes.length ≤ PTRDIFF_MAX := by
    rw [buffer.bytes_length]
    exact buffer.size_le
  refine ⟨peerListCommand buffer, ?_, ?_⟩
  · refine dataCommandDeserialize_ok COMMAND_SEND_PEER_LIST order encoding frame _ _ rfl rfl
      (holds_ofBytes _ heap) (Nat.le_refl _) (hframe.mono ?_)
    rw [dataCommandBytes_length]
    exact Nat.le_add_left _ 24
  · refine peerInfoListDeserialize_ok order encoding decode _ peerInfoList ?_ hsize ?_ hdecode
    · exact congrArg List.length h
    · rw [← h]
      exact holds_ofBytes _ heap'

/-- Whatever is decoded from the frame of a list is the list. -/
theorem peerListFrame_decoded (encoding order : ByteOrder) (frame decode : Allocator)
    (heap heap' : Nat → UInt8) (peerInfoList decoded : List PeerInfo)
    (buffer : SerializationBuffer)
    (h : buffer.bytes = peerInfoListBytes encoding peerInfoList)
    (command : CommandSendPeerList)
    (hcommand : (commandSendPeerListDeserialize order frame
      (.ofBytes (peerListFrame encoding peerInfoList) heap) .start).1 = .ok command)
    (hdecode : (peerInfoListDeserialize order decode (.ofBytes command.data heap') .start).1 =
      .ok decoded) :
    decoded = peerInfoList := by
  rw [← dataCommandBytes_peerListCommand encoding peerInfoList buffer h] at hcommand
  have hat := dataCommandAt_of_holds _ encoding (peerListCommand buffer) (holds_ofBytes
    (dataCommandBytes encoding (peerListCommand buffer)) heap)
  have hsame := (wp_ok (wp_dataCommandDeserialize _ order frame _) hcommand).1.trans hat
  have hdata : command.data = peerInfoListBytes encoding peerInfoList := by
    rw [hsame, ← h]
    rfl
  have hsmall : (peerInfoListBytes encoding peerInfoList).length ≤ PTRDIFF_MAX := by
    rw [← h, buffer.bytes_length]
    exact buffer.size_le
  rw [hdata] at hdecode
  rw [(wp_ok (wp_peerInfoListDeserialize order decode _) hdecode).1]
  exact (peerInfoListAt_of_holds _ encoding peerInfoList hsmall (holds_ofBytes _ heap')).2

/-- The server sends nothing, or it has encoded the table and sends its
    frame. -/
theorem replyWithPeerList_cases (order : ByteOrder) (r : PeerRequest)
    (peerInfoList : List PeerRecord) :
    ((replyWithPeerList order r peerInfoList).2 = [] ∧
      (replyWithPeerList order r peerInfoList).1 ≠ .ok ()) ∨
    ∃ buffer : SerializationBuffer,
      buffer.bytes = peerInfoListBytes order (peerInfoList.map PeerRecord.info) ∧
      (replyWithPeerList order r peerInfoList).2 =
        (sendAll (peerListFrame order (peerInfoList.map PeerRecord.info)) r.acceptances).2 ∧
      ((replyWithPeerList order r peerInfoList).1 = .ok () ↔
        (sendAll (peerListFrame order (peerInfoList.map PeerRecord.info)) r.acceptances).1 =
          some (.ok ())) := by
  unfold replyWithPeerList
  rcases hencode : peerInfoListSerialize order (r.memory .encode) 0
    (peerInfoList.map PeerRecord.info) with code | buffer
  · exact Or.inl ⟨rfl, by simp only [ne_eq, reduceCtorEq, not_false_eq_true]⟩
  have hbytes := bytes_of_peerInfoListSerialize _ _ _ _ _ hencode
  simp only
  by_cases hunlock : r.unlock ≠ 0
  · rw [if_pos hunlock]
    exact Or.inl ⟨rfl, by simp only [ne_eq, reduceCtorEq, not_false_eq_true]⟩
  rw [if_neg hunlock]
  rcases hcommand : commandSendPeerListSerialize order (r.memory .reply)
    ⟨⟨COMMAND_PREFIX, COMMAND_SEND_PEER_LIST, 0⟩, buffer.size, buffer.bytes,
      buffer.bytes_length⟩ with code | ⟨sendBuf, sent⟩
  · exact Or.inl ⟨rfl, by simp only [ne_eq, reduceCtorEq, not_false_eq_true]⟩
  -- What the encoder returns is the frame.
  rcases bytes_of_dataCommandSerialize _ _ _ _ _ _ hcommand with ⟨_, _, rfl, hframe⟩
  have hsend : sendBuf = peerListFrame order (peerInfoList.map PeerRecord.info) :=
    hframe.trans (dataCommandBytes_peerListCommand order _ buffer hbytes)
  refine Or.inr ⟨buffer, hbytes, ?_⟩
  simp only
  rw [hsend]
  rcases sendAll (peerListFrame order (peerInfoList.map PeerRecord.info)) r.acceptances with
    ⟨_ | _ | _, sent⟩
  · simp only [reduceCtorEq, and_self]
  · simp only [Option.some.injEq, reduceCtorEq, and_self]
  · simp only [and_self]

/-- If the table is encoded, the lock is released, the memory of the frame is
    granted and every byte of it is accepted, then the server succeeds. -/
theorem replyWithPeerList_ok (order : ByteOrder) (r : PeerRequest)
    (peerInfoList : List PeerRecord)
    (hencode : (r.memory .encode).Grants
      (peerInfoListBytes order (peerInfoList.map PeerRecord.info)).length)
    (hunlock : r.unlock = 0)
    (hreply : (r.memory .reply).Grants
      (24 + (peerInfoListBytes order (peerInfoList.map PeerRecord.info)).length))
    (hsend : (sendAll (peerListFrame order (peerInfoList.map PeerRecord.info)) r.acceptances).1 =
      some (.ok ())) :
    (replyWithPeerList order r peerInfoList).1 = .ok () := by
  rcases (peerInfoListSerialize_appends order (r.memory .encode) 0 _).ok hencode with
    ⟨buffer, hbuffer, hbytes⟩
  rw [← hbytes] at hreply
  have hframe := dataCommandSerialize_ok COMMAND_SEND_PEER_LIST order (r.memory .reply)
    ⟨⟨COMMAND_PREFIX, COMMAND_SEND_PEER_LIST, 0⟩, buffer.size, buffer.bytes,
      buffer.bytes_length⟩ rfl rfl hreply
  have hsame := dataCommandBytes_peerListCommand order _ buffer hbytes
  unfold peerListCommand at hsame
  simp only [hsame] at hframe
  unfold replyWithPeerList
  rw [hbuffer]
  simp only [hunlock, ne_eq, not_true_eq_false, if_false, commandSendPeerListSerialize, hframe]
  rcases hall : sendAll (peerListFrame order (peerInfoList.map PeerRecord.info)) r.acceptances with
    ⟨result, sent⟩
  rw [hall] at hsend
  simp only at hsend
  rw [hsend]

end LeoCoin
