import LeoCoin.Core.Outputs
import LeoCoin.Theory.Delivery

/-!
# Truncation

What the decoders make of the beginning of a frame.

A frame that is cut off fails a comparison, and it should always be one with
the size of the buffer. The order of the comparisons sees to that: the prefix,
the code and the length of the data are looked at only after it is known that
the buffer has them. Behind the last byte of the buffer there may be anything,
and none of it is compared with anything.

Three of the four formats end where the last comparison of their decoder ends.
The request to register a peer does not. Its encoder takes the size of the
payload from the structure, which has four bytes of padding behind the last
member, and its decoder adds up the members. So the last four bytes of the
frame can be cut off, and it is still accepted.

## Main definitions

* `Begins`: A buffer holds the beginning of some bytes.
* `Message`: A header or a command, with its encoder and the size it reports.
* `RefusesTruncated`, `Message.Refused`: A decoder refuses the beginning of some
  bytes.
* `Message.Encoded`: What the encoders return.

## Theorems

* `Begins.holds`: What the buffer has of the bytes.
* `wp_header_truncated`, `wp_registerPeer_truncated`, `wp_data_truncated`: What
  the decoders do with the beginning of a frame.
* `Message.bufferSize_eq`: The size reported is that of the bytes.
* `message_refused_iff`: Which beginnings are refused.
* `sampleRegisterPeer_truncated`: A request without its padding.
-/

namespace LeoCoin

open Decoder

/-- The buffer is the beginning of the given bytes. -/
def Begins (b : Buffer) (bs : List UInt8) : Prop :=
  b.size ≤ bs.length ∧ Holds b 0 (bs.take b.size)

/-- The first bytes are in the buffer if it is long enough. -/
theorem Begins.holds {b : Buffer} {bs xs ys : List UInt8} (h : Begins b bs) (hbs : bs = xs ++ ys)
    (hlen : xs.length ≤ b.size) : Holds b 0 xs := by
  have hholds := h.2
  rw [hbs, List.take_append, List.take_of_length_le hlen, holds_append] at hholds
  exact hholds.1

theorem begins_ofBytes (bs : List UInt8) (k : Nat) (hk : k ≤ bs.length) (heap : Nat → UInt8) :
    (Buffer.ofBytes (bs.take k) heap).size = k ∧
      Begins (Buffer.ofBytes (bs.take k) heap) bs := by
  have hsize : (Buffer.ofBytes (bs.take k) heap).size = k := by
    rw [Buffer.ofBytes, List.length_take, Nat.min_eq_left hk]
  refine ⟨hsize, ?_, ?_⟩
  · rw [hsize]
    exact hk
  · rw [hsize]
    exact holds_ofBytes _ heap

section Decoders

variable (order : ByteOrder) (b : Buffer) (hfront : 4 ≤ b.size → b.bytesAt 0 4 = COMMAND_PREFIX)

include hfront

/-- A header with the right prefix, as far as there is one, is decoded or is
    too short. -/
theorem wp_header_truncated :
    wp (commandHeaderDeserialize order b) .start
      (fun header s' => header = commandHeaderAt b ∧ s'.pos = 16 ∧ 16 ≤ b.size)
      (fun e _ => e = .failureBufferTooSmall ∧ b.size < 16) := by
  by_cases h4 : 4 ≤ b.size
  · refine wp_mono (wp_commandHeaderDeserialize order b) ?_ ?_
    · intro header s' h
      exact ⟨h.1, h.2.2.1, h.2.2.2⟩
    · intro e s' h
      rcases h with ⟨he, hlt⟩ | ⟨_, hne⟩
      · exact ⟨he, hlt⟩
      · exact absurd (hfront h4) hne
  · -- The first comparison fails, and the prefix is not looked at.
    refine wp_bind (wp_checkRead ?_ fun _ => ⟨rfl, by omega⟩)
    intro h
    exact absurd (by rwa [show Cursor.start.pos = 0 from rfl, Nat.zero_add] at h) h4

/-- A request to register a peer, as far as there is one, is decoded or is too
    short for its members. -/
theorem wp_registerPeer_truncated
    (hcode : 16 ≤ b.size → (commandHeaderAt b).command = COMMAND_REGISTER_PEER) :
    wp (commandRegisterPeerDeserialize order b) .start (fun _ _ => 44 ≤ b.size)
      (fun e _ => e = .failureBufferTooSmall ∧ b.size < 44) := by
  refine wp_bind (wp_mono (wp_header_truncated order b hfront) ?_ ?_)
  · intro header s1 h
    rcases h with ⟨rfl, p1, f1⟩
    rw [if_neg (not_not_intro (hcode f1))]
    refine wp_bind (wp_mono (wp_readSockaddr b s1) ?_ ?_)
    · intro addr s2 h
      exact wp_pure (by omega)
    · intro e s2 h
      exact ⟨h.1, by omega⟩
  · intro e s1 h
    exact ⟨h.1, by omega⟩

/-- A command with data, as far as there is one, is too short if the buffer
    ends before the data does. -/
theorem wp_data_truncated (code : UInt32) (alloc : Allocator)
    (hcode : 16 ≤ b.size → (commandHeaderAt b).command = code)
    (hlen : 24 ≤ b.size → b.size < (24 + fieldAt b 16).toNat) :
    wp (dataCommandDeserialize code order alloc b) .start (fun _ _ => False)
      (fun e _ => e = .failureBufferTooSmall) := by
  refine wp_bind (wp_mono (wp_header_truncated order b hfront) ?_ fun _ _ h => h.1)
  intro header s1 h
  rcases h with ⟨rfl, p1, f1⟩
  rw [if_neg (not_not_intro (hcode f1))]
  refine wp_bind (wp_readUInt64 ?_ fun _ => rfl)
  intro s2 p2 f2
  rw [p1] at p2 ⊢
  -- The length is in the buffer, so it is the one that was announced.
  rw [if_pos (hlen (by omega))]
  exact wp_fail rfl

end Decoders

/-- A header on its own, or a command. -/
inductive Message where
  | bareHeader (header : CommandHeader)
  | ofCommand (command : Command)

namespace Message

/-- The bytes the encoder of the message returns. -/
def serialize (order : ByteOrder) (alloc : Allocator) : Message → Except ReturnCode (List UInt8)
  | bareHeader header => commandHeaderSerialize order alloc 0 header
  | ofCommand command => (command.serialize order alloc).map Prod.fst

/-- The size the encoder reports for those bytes. -/
def bufferSize : Message → UInt64
  | bareHeader _ => UInt64.ofNat sizeofCommandHeader
  | ofCommand (.registerPeer _) => UInt64.ofNat sizeofCommandRegisterPeer
  | ofCommand (.sendPeerList command) => 16 + 8 + command.dataLen
  | ofCommand (.sendBlockchain command) => 16 + 8 + command.blockchainDataLen

end Message

/-- Given the first `k` bytes, a decoder returns that they are too few, and
    leaves its output as it was, whatever lies behind them in memory. -/
def RefusesTruncated {α : Type} (bs : List UInt8) (k : Nat)
    (decoder : Option α → Option Buffer → Except ReturnCode Unit × Option α) : Prop :=
  ∀ old heap, decoder (some old) (some (Buffer.ofBytes (bs.take k) heap)) =
    (.error .failureBufferTooSmall, some old)

/-- The decoder for the message refuses the first `k` of the given bytes. -/
def Message.Refused (order : ByteOrder) (alloc : Allocator) (bs : List UInt8) (k : Nat) :
    Message → Prop
  | bareHeader _ => RefusesTruncated bs k (callCommandHeaderDeserialize order)
  | ofCommand (.registerPeer _) => RefusesTruncated bs k (callCommandRegisterPeerDeserialize order)
  | ofCommand (.sendPeerList _) =>
    RefusesTruncated bs k (callCommandSendPeerListDeserialize order alloc)
  | ofCommand (.sendBlockchain _) =>
    RefusesTruncated bs k (callCommandSendBlockchainDeserialize order alloc)

/-- A decoder refuses a beginning if it returns that there are too few bytes. -/
theorem refusesTruncated_of {α : Type} {decoder : Buffer → Decoder ReturnCode α} {bs : List UInt8}
    {k : Nat} (h : ∀ heap, (decoder (Buffer.ofBytes (bs.take k) heap) .start).1 =
      .error .failureBufferTooSmall) : RefusesTruncated bs k (callDecoder decoder id) :=
  fun old heap => callDecoder_refused decoder id old _ _ (h heap)

/-- The header at the beginning of a frame, as far as the buffer has it. -/
theorem Begins.header {b : Buffer} {encoding : ByteOrder} {header : CommandHeader}
    {bs ys : List UInt8} (h : Begins b bs) (hbs : bs = headerBytes encoding header ++ ys)
    (hfront : header.commandPrefix = COMMAND_PREFIX) :
    (4 ≤ b.size → b.bytesAt 0 4 = COMMAND_PREFIX) ∧
      (16 ≤ b.size → commandHeaderAt b = header) := by
  refine ⟨fun h4 => ?_, fun h16 => ?_⟩
  · rw [headerBytes, List.append_assoc, List.append_assoc] at hbs
    rw [← hfront]
    exact bytesAt_of_holds b 0 4 _ (h.holds hbs (by rw [List.Vector.toList_length]; exact h4))
  · exact commandHeaderAt_of_holds b encoding header
      (h.holds hbs (by rw [headerBytes_length]; exact h16))

/-- The beginning of a header is refused. -/
theorem header_refused (order encoding : ByteOrder) (header : CommandHeader) (k : Nat)
    (hfront : header.commandPrefix = COMMAND_PREFIX) (hk : k < 16) :
    RefusesTruncated (headerBytes encoding header) k (callCommandHeaderDeserialize order) := by
  refine refusesTruncated_of fun heap => ?_
  rcases begins_ofBytes (headerBytes encoding header) k
    (by rw [headerBytes_length]; omega) heap with ⟨hsize, hbegins⟩
  have hspec := wp_header_truncated order _
    (hbegins.header (List.append_nil _).symm hfront).1
  refine error_of_wp (wp_mono hspec ?_ fun _ _ h => h.1)
  intro _ _ h
  omega

/-- The beginning of an encoded command with data is refused, if it is shorter
    than the size that is reported. -/
theorem dataCommand_refused (code : UInt32) (order encoding : ByteOrder)
    (encoder alloc : Allocator) (command sent : DataCommand) (bs : List UInt8) (k : Nat)
    (hser : dataCommandSerialize code encoding encoder command = .ok (bs, sent))
    (hk : k < (16 + 8 + command.dataLen).toNat) (heap : Nat → UInt8) :
    (dataCommandDeserialize code order alloc (Buffer.ofBytes (bs.take k) heap) .start).1 =
      .error .failureBufferTooSmall := by
  rcases bytes_of_dataCommandSerialize _ _ _ _ _ _ hser with ⟨hcode, hfront, hsent, rfl⟩
  have hlen : command.dataLen = sent.dataLen := by rw [hsent]
  have hsentFront : sent.header.commandPrefix = COMMAND_PREFIX := by rw [hsent, hfront]
  have hsentCode : sent.header.command = code := by rw [hsent, hcode]
  rw [hlen] at hk
  -- The size reported is at most that of the bytes, and less if it has wrapped.
  have hsum : (16 + 8 + sent.dataLen).toNat ≤ 24 + sent.dataLen.toNat := by
    have h : (16 + 8 + sent.dataLen).toNat = (24 + sent.dataLen.toNat) % 2 ^ 64 :=
      UInt64.toNat_add 24 _
    rw [h]
    exact Nat.mod_le _ _
  rcases begins_ofBytes (dataCommandBytes encoding sent) k
    (by rw [dataCommandBytes_length, sent.length_data]; omega) heap with ⟨hsize, hbegins⟩
  rcases hbegins.header rfl hsentFront with ⟨hfrontAt, hheader⟩
  refine error_of_wp (wp_data_truncated order _ hfrontAt code alloc ?_ ?_)
  · intro h16
    rw [hheader h16]
    exact hsentCode
  · intro h24
    -- The length in front of the data is in the buffer.
    have hholds := hbegins.holds (List.append_assoc _ _ _).symm
      (by rw [List.length_append, headerBytes_length, storeUInt64_length]; exact h24)
    rw [holds_append, headerBytes_length] at hholds
    have hfield := fieldAt_of_holds _ _ encoding _ hholds.2
    rw [Nat.zero_add] at hfield
    rw [hfield, hsize]
    exact hk

/-- The beginning of a request to register a peer is refused exactly if it
    ends before the last member does. -/
theorem registerPeer_refused_iff (order encoding : ByteOrder) (command : CommandRegisterPeer)
    (k : Nat) (hfront : command.header.commandPrefix = COMMAND_PREFIX)
    (hcode : command.header.command = COMMAND_REGISTER_PEER) (hk : k ≤ 48) :
    RefusesTruncated (registerPeerBytes encoding command) k
      (callCommandRegisterPeerDeserialize order) ↔ k < 44 := by
  have hspec : ∀ heap, wp (commandRegisterPeerDeserialize order
      (Buffer.ofBytes ((registerPeerBytes encoding command).take k) heap)) .start
      (fun _ _ => 44 ≤ k) (fun e _ => e = .failureBufferTooSmall ∧ k < 44) := by
    intro heap
    rcases begins_ofBytes (registerPeerBytes encoding command) k
      (by rw [registerPeerBytes_length]; exact hk) heap with ⟨hsize, hbegins⟩
    rcases hbegins.header rfl hfront with ⟨hfrontAt, hheader⟩
    have h := wp_registerPeer_truncated order _ hfrontAt fun h16 => by
      rw [hheader h16]
      exact hcode
    rwa [hsize] at h
  constructor
  · intro h
    -- With the members complete the decoder returns a request.
    by_contra hc
    have hcall := h command fun _ => 0
    rcases hrun : (commandRegisterPeerDeserialize order (Buffer.ofBytes
        ((registerPeerBytes encoding command).take k) fun _ => 0) .start).1 with e | value
    · exact hc (wp_error (hspec fun _ => 0) hrun).2
    · rw [callCommandRegisterPeerDeserialize, callDecoder_some _ id _ _ _ hrun] at hcall
      exact absurd (congrArg Prod.fst hcall) (by simp only [reduceCtorEq, not_false_eq_true])
  · intro h
    refine refusesTruncated_of fun heap => error_of_wp (wp_mono (hspec heap) ?_ ?_)
    · intro _ _ h44
      omega
    · exact fun _ _ he => he.1

namespace Message

/-- What the encoders of the messages return. A chain is encoded as data. -/
inductive Encoded (encoding : ByteOrder) (encoder : Allocator) (bs : List UInt8) : Message → Prop
  | bareHeader (header : CommandHeader)
      (h : commandHeaderSerialize encoding encoder 0 header = .ok bs) :
      Encoded encoding encoder bs (.bareHeader header)
  | registerPeer (command sent : CommandRegisterPeer)
      (h : commandRegisterPeerSerialize encoding encoder command = .ok (bs, sent)) :
      Encoded encoding encoder bs (.ofCommand (.registerPeer command))
  | sendPeerList (command sent : DataCommand)
      (h : dataCommandSerialize COMMAND_SEND_PEER_LIST encoding encoder command = .ok (bs, sent)) :
      Encoded encoding encoder bs (.ofCommand (.sendPeerList command))
  | sendBlockchain (command : CommandSendBlockchain) (sent : DataCommand)
      (h : dataCommandSerialize COMMAND_SEND_BLOCKCHAIN encoding encoder command.toDataCommand =
        .ok (bs, sent)) :
      Encoded encoding encoder bs (.ofCommand (.sendBlockchain command))

theorem encoded_of_serialize {encoding : ByteOrder} {encoder : Allocator} {m : Message}
    {bs : List UInt8} (h : m.serialize encoding encoder = .ok bs) :
    Encoded encoding encoder bs m := by
  cases m with
  | bareHeader header => exact .bareHeader header h
  | ofCommand command =>
      rcases ok_of_map_ok h with ⟨⟨frame, sent⟩, hser, rfl⟩
      cases command with
      | registerPeer command =>
          rcases ok_of_map_ok hser with ⟨⟨frame', sent'⟩, hrun, hpair⟩
          rw [← congrArg Prod.fst hpair]
          exact .registerPeer command sent' hrun
      | sendPeerList command =>
          rcases ok_of_map_ok hser with ⟨⟨frame', sent'⟩, hrun, hpair⟩
          rw [← congrArg Prod.fst hpair]
          exact .sendPeerList command sent' hrun
      | sendBlockchain command =>
          rcases ok_of_map_ok hser with ⟨⟨frame', sent'⟩, hrun, hpair⟩
          rw [commandSendBlockchainSerialize_eq] at hrun
          rcases ok_of_map_ok hrun with ⟨⟨frame'', sent''⟩, hdata, hpair'⟩
          rw [← congrArg Prod.fst hpair, ← congrArg Prod.fst hpair']
          exact .sendBlockchain command sent'' hdata

/-- The size reported is that of the bytes, for bytes that fit in memory. -/
theorem bufferSize_eq {encoding : ByteOrder} {encoder : Allocator} {m : Message}
    {bs : List UInt8} (h : m.serialize encoding encoder = .ok bs)
    (hmax : bs.length ≤ PTRDIFF_MAX) : m.bufferSize.toNat = bs.length := by
  unfold PTRDIFF_MAX at hmax
  -- The size of a command with data is that of its parts, as the sum does not wrap.
  have hdata : ∀ code (command sent : DataCommand),
      dataCommandSerialize code encoding encoder command = .ok (bs, sent) →
      (16 + 8 + command.dataLen).toNat = bs.length := by
    intro code command sent hser
    rcases bytes_of_dataCommandSerialize _ _ _ _ _ _ hser with ⟨_, _, hsent, rfl⟩
    have hlen := dataCommandBytes_length encoding sent
    rw [sent.length_data, show sent.dataLen = command.dataLen by rw [hsent]] at hlen
    have hsum : (16 + 8 + command.dataLen).toNat = (24 + command.dataLen.toNat) % 2 ^ 64 :=
      UInt64.toNat_add 24 _
    omega
  cases encoded_of_serialize h with
  | bareHeader header hser =>
      rw [((commandHeaderSerialize_ok_iff _ _ _ _ _).mp hser).2.2, headerBytes_length]
      rfl
  | registerPeer command sent hser =>
      rw [(bytes_of_commandRegisterPeerSerialize _ _ _ _ _ hser).2.2.2, registerPeerBytes_length]
      rfl
  | sendPeerList command sent hser => exact hdata _ command sent hser
  | sendBlockchain command sent hser => exact hdata _ command.toDataCommand sent hser

end Message

/-- The decoder of a message refuses every beginning of it that is shorter than
    the size its encoder reports, as too small and with the output left as it
    was, exactly if the message is not a request to register a peer cut off
    behind its last member. -/
theorem message_refused_iff (order encoding : ByteOrder) (encoder alloc : Allocator)
    (m : Message) (bs : List UInt8) (k : Nat) (hser : m.serialize encoding encoder = .ok bs)
    (hk : k < m.bufferSize.toNat) :
    m.Refused order alloc bs k ↔
      ¬ ((∃ command, m = .ofCommand (.registerPeer command)) ∧ 44 ≤ k) := by
  cases Message.encoded_of_serialize hser with
  | bareHeader header hrun =>
      rcases (commandHeaderSerialize_ok_iff _ _ _ _ _).mp hrun with ⟨_, hfront, rfl⟩
      exact iff_of_true (header_refused order encoding header k hfront hk) nofun
  | registerPeer command sent hrun =>
      rcases bytes_of_commandRegisterPeerSerialize _ _ _ _ _ hrun with
        ⟨hcode, hfront, hsent, rfl⟩
      refine (registerPeer_refused_iff order encoding sent k (by rw [hsent]; exact hfront)
        (by rw [hsent]; exact hcode) (Nat.le_of_lt hk)).trans ?_
      constructor
      · intro h hc
        omega
      · intro h
        by_contra hc
        exact h ⟨⟨command, rfl⟩, by omega⟩
  | sendPeerList command sent hrun =>
      exact iff_of_true (refusesTruncated_of
        (dataCommand_refused _ order encoding encoder alloc command sent bs k hrun hk)) nofun
  | sendBlockchain command sent hrun =>
      refine iff_of_true (refusesTruncated_of fun heap => ?_) nofun
      rw [commandSendBlockchainDeserialize_eq, dataCommand_refused _ order encoding encoder alloc
        command.toDataCommand sent bs k hrun hk heap]
      rfl

/-- The encoding of the sample request. -/
theorem sampleRegisterPeer_serialize :
    (Message.ofCommand (.registerPeer sampleRegisterPeer)).serialize .little .generous =
      .ok (registerPeerBytes .little
        { sampleRegisterPeer with
          header := { sampleRegisterPeer.header with commandLen := 32 } }) := by
  have hser := commandRegisterPeerSerialize_ok .little .generous sampleRegisterPeer rfl rfl
    (Allocator.generous_grants _ (by decide))
  rw [Message.serialize, Command.serialize, hser]
  rfl

/-- The sample request is refused when only its header and the family of its
    address have arrived. -/
theorem message_refused_iff_sample :
    ∃ bs, (Message.ofCommand (.registerPeer sampleRegisterPeer)).serialize .little .generous =
        .ok bs ∧
      (Message.ofCommand (.registerPeer sampleRegisterPeer)).Refused .little .generous bs 18 :=
  ⟨_, sampleRegisterPeer_serialize, (message_refused_iff .little .little .generous .generous _ _ 18
    sampleRegisterPeer_serialize (by decide)).mpr fun hc => absurd hc.2 (by decide)⟩

/-- The sample request without its padding is accepted. -/
theorem sampleRegisterPeer_truncated :
    ¬ ∀ (order encoding : ByteOrder) (encoder alloc : Allocator) (m : Message) (bs : List UInt8)
      (k : Nat), m.serialize encoding encoder = .ok bs → k < m.bufferSize.toNat →
      m.Refused order alloc bs k := by
  intro h
  have hrefused := h .little .little .generous .generous _ _ 44 sampleRegisterPeer_serialize
    (by decide)
  have hlt := (registerPeer_refused_iff .little .little _ 44 rfl rfl (by decide)).mp hrefused
  omega

end LeoCoin
