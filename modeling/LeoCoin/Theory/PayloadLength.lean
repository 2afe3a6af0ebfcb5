import LeoCoin.Theory.Canonical
import LeoCoin.Theory.Commands

/-!
# Payload Lengths

The two lengths in a frame, and what becomes of them.

A frame that carries data has the size of its payload in the header, where the
receiver finds out how much to wait for, and the size of the data in front of
the data, where the decoder finds out how much to copy. The encoder computes
the first from the second. The decoder reads both and compares neither with the
other, and the return code for a wrong payload size is returned nowhere. So a
frame whose header announces something else is accepted, and encoding what was
decoded writes another header.

That is all that goes wrong. Where the stored sizes agree, the encoder undoes
the decoder.

## Main definitions

* `Undone`: The lengths agree in what is decoded, and the encoder undoes it.
* `FrameAt`: A frame with data lies at the beginning of a buffer.
* `unannounced`: A frame whose header announces no payload.

## Theorems

* `dataCommandDeserialize_ok_iff`: The frames that are decoded.
* `holds_dataCommandAt`: The command in a buffer encodes to the bytes there.
* `dataCommand_undone_iff`: When the lengths agree, at any code.
* `undone_map_iff`: It does not depend on names.
* `undone_iff`: When they agree, for both decoders.
* `unannounced_accepted`: A frame whose lengths do not agree.
-/

namespace LeoCoin

open Decoder

/-- What a decoder returns has a header that announces the length and the data,
    and its encoding is what the decoder has read. -/
structure Undone {α : Type} (decode : Decoder ReturnCode α)
    (encode : Allocator → α → Except ReturnCode (List UInt8 × α)) (header : α → CommandHeader)
    (data : α → List UInt8) (b : Buffer) : Prop where
  lengths : ∀ command, (decode .start).1 = .ok command →
    (header command).commandLen.toNat = 8 + (data command).length
  bytes : ∀ command, (decode .start).1 = .ok command →
    ∀ encoder : Allocator, encoder.Grants (24 + (data command).length) →
      encode encoder command = .ok (slice b.byte 0 (decode .start).2.pos, command)

/-- A frame with data lies at the beginning of the buffer and inside it, and
    memory for its data is granted. -/
structure FrameAt (code : UInt32) (alloc : Allocator) (b : Buffer) : Prop where
  size : 24 + (fieldAt b 16).toNat ≤ b.size
  front : b.bytesAt 0 4 = COMMAND_PREFIX
  command : UInt32.ofNat (bigEndianValue (slice b.byte 4 4)) = code
  memory : alloc.grants 0 (fieldAt b 16).toNat = true

/-- The decoder returns a command exactly if a frame lies in the buffer. -/
theorem dataCommandDeserialize_ok_iff (code : UInt32) (order : ByteOrder) (alloc : Allocator)
    (b : Buffer) (command : DataCommand) :
    (dataCommandDeserialize code order alloc b .start).1 = .ok command ↔
      FrameAt code alloc b ∧ command = dataCommandAt b := by
  have hspec := wp_dataCommandDeserialize code order alloc b
  constructor
  · intro h
    rcases wp_ok hspec h with ⟨hcommand, hfront, hcode, hsize, _, hgrant⟩
    exact ⟨⟨hsize, hfront, hcode, hgrant⟩, hcommand⟩
  · rintro ⟨⟨hsize, hfront, hcode, hgrant⟩, rfl⟩
    -- Memory that is granted is too little for the sum to wrap.
    have hmax := alloc.bounded _ _ hgrant
    unfold PTRDIFF_MAX at hmax
    have hsum : (24 + fieldAt b 16).toNat = (24 + (fieldAt b 16).toNat) % 2 ^ 64 :=
      UInt64.toNat_add 24 _
    rcases hrun : (dataCommandDeserialize code order alloc b .start).1 with e | command
    · exfalso
      rcases wp_error hspec hrun with ⟨h, _⟩ | ⟨h, _⟩ | ⟨h, _⟩ | ⟨h, _⟩ | ⟨h, _⟩
      · omega
      · exact h hfront
      · exact h hcode
      · omega
      · exact h hgrant
    · rw [(wp_ok hspec hrun).1]

/-- The command at the beginning of a buffer encodes to the bytes there. -/
theorem holds_dataCommandAt (b : Buffer) (order : ByteOrder) :
    Holds b 0 (dataCommandBytes order (dataCommandAt b)) := by
  rw [dataCommandBytes, holds_append, headerBytes_length, holds_append, storeUInt64_length]
  refine ⟨holds_commandHeaderAt b order, holds_fieldAt b 16 order, ?_⟩
  rw [Holds, dataCommandAt_length]
  rfl

/-- The lengths in what is decoded agree exactly if those of the frame do, and
    then the encoder undoes the decoder. -/
theorem dataCommand_undone_iff (code : UInt32) (order : ByteOrder) (alloc : Allocator)
    (b : Buffer) :
    Undone (dataCommandDeserialize code order alloc b) (dataCommandSerialize code order)
        DataCommand.header DataCommand.data b ↔
      (FrameAt code alloc b → fieldAt b 8 = 8 + fieldAt b 16) := by
  -- Memory that is granted is too little for the payload size to wrap.
  have hpayload : FrameAt code alloc b →
      (8 + fieldAt b 16).toNat = 8 + (dataCommandAt b).data.length := by
    intro hframe
    have hmax := alloc.bounded _ _ hframe.memory
    unfold PTRDIFF_MAX at hmax
    have hlen := dataCommandAt_length b
    have hsum : (8 + fieldAt b 16).toNat = (8 + (fieldAt b 16).toNat) % 2 ^ 64 :=
      UInt64.toNat_add 8 _
    omega
  constructor
  · intro h hframe
    have hrun := (dataCommandDeserialize_ok_iff code order alloc b _).mpr ⟨hframe, rfl⟩
    apply UInt64.toNat_inj.mp
    have hlengths := h.lengths _ hrun
    rw [dataCommandAt_commandLen] at hlengths
    rw [hlengths, hpayload hframe]
  · intro h
    constructor
    · intro command hrun
      rcases (dataCommandDeserialize_ok_iff code order alloc b _).mp hrun with ⟨hframe, rfl⟩
      have hfield := h hframe
      rw [← hpayload hframe, ← hfield, dataCommandAt_commandLen]
    · intro command hrun encoder hm
      have hpos := (wp_ok (wp_dataCommandDeserialize code order alloc b) hrun).2.2.2.2.1
      rcases (dataCommandDeserialize_ok_iff code order alloc b _).mp hrun with ⟨hframe, rfl⟩
      have hser := dataCommandSerialize_ok code order encoder _ hframe.front hframe.command hm
      -- The size the encoder puts into the header is there already.
      have hsent : { dataCommandAt b with header :=
          { (dataCommandAt b).header with commandLen := 8 + (dataCommandAt b).dataLen } } =
          dataCommandAt b := by
        have hfield : (8 : UInt64) + (dataCommandAt b).dataLen =
            (dataCommandAt b).header.commandLen := (h hframe).symm
        rw [hfield]
      have hholds := holds_dataCommandAt b order
      rw [Holds, dataCommandBytes_length, dataCommandAt_length] at hholds
      simp only [hsent] at hser
      rw [hser, hpos, ← hholds]

/-- That the encoder undoes the decoder does not depend on names: `f` and `g`
    rename what is decoded, one back and one forth. -/
theorem undone_map_iff {α β : Type} {decode : Decoder ReturnCode α}
    {decode' : Decoder ReturnCode β} {encode : Allocator → α → Except ReturnCode (List UInt8 × α)}
    {encode' : Allocator → β → Except ReturnCode (List UInt8 × β)} {header : α → CommandHeader}
    {header' : β → CommandHeader} {data : α → List UInt8} {data' : β → List UInt8} {b : Buffer}
    (f : α → β) (g : β → α) (hfg : ∀ y, f (g y) = y) (hgf : ∀ x, g (f x) = x)
    (hdecode : decode' .start = ((decode .start).1.map f, (decode .start).2))
    (hencode : ∀ encoder y, encode' encoder y =
      (encode encoder (g y)).map fun r => (r.1, f r.2))
    (hheader : ∀ x, header' (f x) = header x) (hdata : ∀ x, data' (f x) = data x) :
    Undone decode' encode' header' data' b ↔ Undone decode encode header data b := by
  -- What one decoder returns is what the other returns under the other name.
  have hok : ∀ x, (decode' .start).1 = .ok (f x) ↔ (decode .start).1 = .ok x := by
    intro x
    rw [hdecode]
    rcases (decode .start).1 with e | x'
    · simp only [Except.map, reduceCtorEq]
    · simp only [Except.map, Except.ok.injEq]
      exact ⟨fun h => by rw [← hgf x', h, hgf], fun h => by rw [h]⟩
  have hpos : (decode' .start).2.pos = (decode .start).2.pos := by rw [hdecode]
  constructor
  · intro h
    constructor
    · intro x hx
      rw [← hheader, ← hdata]
      exact h.lengths (f x) ((hok x).mpr hx)
    · intro x hx encoder hm
      rw [← hdata] at hm
      have henc := h.bytes (f x) ((hok x).mpr hx) encoder hm
      rw [hencode, hgf, hpos] at henc
      rcases ok_of_map_ok henc with ⟨⟨bs, sent⟩, hrun, hpair⟩
      simp only [Prod.mk.injEq] at hpair
      rw [hrun, hpair.1, ← hgf sent, hpair.2, hgf]
  · intro h
    constructor
    · intro y hy
      rw [← hfg y] at hy ⊢
      rw [hheader, hdata]
      exact h.lengths (g y) ((hok _).mp hy)
    · intro y hy encoder hm
      rw [← hfg y] at hy hm
      rw [hdata] at hm
      rw [hencode, h.bytes (g y) ((hok _).mp hy) encoder hm, hpos]
      simp only [Except.map, hfg]

/-- For the frames of both decoders, the header announces the length and the
    data, and the encoder undoes the decoder, exactly if the size stored in the
    header of a frame that lies in the buffer is eight more than the size stored
    in front of the data. -/
theorem undone_iff (order : ByteOrder) (alloc : Allocator) (b : Buffer) :
    (Undone (commandSendPeerListDeserialize order alloc b) (commandSendPeerListSerialize order)
        DataCommand.header DataCommand.data b ↔
      (FrameAt COMMAND_SEND_PEER_LIST alloc b → fieldAt b 8 = 8 + fieldAt b 16)) ∧
    (Undone (commandSendBlockchainDeserialize order alloc b) (commandSendBlockchainSerialize order)
        CommandSendBlockchain.header CommandSendBlockchain.blockchainData b ↔
      (FrameAt COMMAND_SEND_BLOCKCHAIN alloc b → fieldAt b 8 = 8 + fieldAt b 16)) :=
  ⟨dataCommand_undone_iff COMMAND_SEND_PEER_LIST order alloc b,
    (undone_map_iff DataCommand.toSendBlockchain CommandSendBlockchain.toDataCommand
      (fun _ => rfl) (fun _ => rfl) (commandSendBlockchainDeserialize_eq order alloc b .start)
      (fun encoder command => commandSendBlockchainSerialize_eq order encoder command)
      (fun _ => rfl) fun _ => rfl).trans
      (dataCommand_undone_iff COMMAND_SEND_BLOCKCHAIN order alloc b)⟩

/-- A frame for a list of peers with no data, whose header announces no
    payload. -/
def unannounced : Buffer where
  byte := extend [0x4c, 0x45, 0x4f, 0, 0, 0, 0, 3] fun _ => 0
  size := 24

/-- The frame is accepted, though the eight bytes of its payload are not
    announced. -/
theorem unannounced_accepted :
    ¬ ∀ (order : ByteOrder) (alloc : Allocator) (b : Buffer),
      Undone (commandSendPeerListDeserialize order alloc b) (commandSendPeerListSerialize order)
          DataCommand.header DataCommand.data b ∧
        Undone (commandSendBlockchainDeserialize order alloc b)
          (commandSendBlockchainSerialize order) CommandSendBlockchain.header
          CommandSendBlockchain.blockchainData b := by
  intro h
  have hframe : FrameAt COMMAND_SEND_PEER_LIST .generous unannounced :=
    ⟨by decide, by decide, by decide, by decide⟩
  have hfield := (dataCommand_undone_iff COMMAND_SEND_PEER_LIST .little .generous unannounced).mp
    (h .little .generous unannounced).1 hframe
  exact absurd hfield (by decide)

end LeoCoin
