import LeoCoin.Theory.Canonical
import LeoCoin.Theory.PeerList

/-!
# The Peer List Codec

Exactly which buffers are lists of peers, and of which peers.

A buffer is accepted if the number in its first eight bytes, counted in natural
numbers, leaves room for as many peers of 36 bytes. The decoder never forms the
product. It compares before each of the six reads of a peer, and the first
comparison that fails is the first that would leave the buffer, so a count near
`2 ^ 64` is refused as soon as the bytes run out.

In the other direction the bytes accepted are those the encoder writes for the
result, and the bytes the encoder writes are accepted with the same result.

## Theorems

* `numPeersAt_eq`: The number of peers announced.
* `holds_sockaddrAt`, `holds_peerInfoListAt`: The list encodes to memory.
* `peerInfoListDeserialize_staysInside`: The decoder stays inside its buffer.
* `peerInfoListDeserialize_exact`: What is accepted.
* `peerInfoList_codec`: The codec is exact.
-/

namespace LeoCoin

open Decoder

/-- The number of peers announced is the big endian value of eight bytes. -/
theorem numPeersAt_eq (b : Buffer) : numPeersAt b = bigEndianValue (slice b.byte 0 8) := by
  have hlt : bigEndianValue (slice b.byte 0 8) < 2 ^ 64 := slice_value_lt b 0 8
  rw [numPeersAt, fieldAt, UInt64.toNat_ofNat', Nat.mod_eq_of_lt hlt]

/-- The socket address at an offset encodes to the bytes there. -/
theorem holds_sockaddrAt (b : Buffer) (o : Nat) : Holds b o (sockaddrBytes (sockaddrAt b o)) := by
  simp only [sockaddrBytes, sockaddrAt, holds_append, List.length_append, bigEndian_length,
    List.Vector.toList_length]
  exact ⟨⟨⟨⟨holds_uint16 b _, holds_uint16 b _⟩, holds_uint32 b _⟩, holds_bytesAt b _ _⟩,
    holds_uint32 b _⟩

theorem holds_peerInfoAt (b : Buffer) (o : Nat) (order : ByteOrder) :
    Holds b o (peerInfoBytes order (peerInfoAt b o)) := by
  rw [peerInfoBytes, holds_append, sockaddrBytes_length]
  exact ⟨holds_sockaddrAt b o, holds_fieldAt b _ order⟩

/-- The list in a buffer encodes to the bytes from the first on. -/
theorem holds_peerInfoListAt (b : Buffer) (order : ByteOrder) :
    Holds b 0 (peerInfoListBytes order (peerInfoListAt b)) := by
  -- The number of peers that the encoder counts is the field it was read from.
  have hcount : UInt64.ofNat (linkedListLength (peerInfoListAt b)) = fieldAt b 0 := by
    rw [linkedListLength, peerInfoListAt, List.length_map, List.length_range, numPeersAt,
      UInt64.ofNat_toNat]
  rw [peerInfoListBytes, holds_append, hcount, storeUInt64_length]
  refine ⟨holds_fieldAt b 0 order, ?_⟩
  rw [peerInfoListAt, List.map_map]
  refine (holds_consecutive b (fun k => 8 + 36 * k) _ ?_ ?_ (numPeersAt b)).1
  · intro k
    rw [Function.comp_apply, peerInfoBytes_length]
    omega
  · exact fun k => holds_peerInfoAt b _ order

theorem peerInfoListAt_length (b : Buffer) : (peerInfoListAt b).length = numPeersAt b := by
  rw [peerInfoListAt, List.length_map, List.length_range]

section Inside

variable (order : ByteOrder) (alloc : Allocator) (b : Buffer)

theorem readUInt64_staysInside : StaysInside b (readUInt64 order b) :=
  fun _ hs => wp_readUInt64 (fun _ _ hs' => hs') fun _ => hs

theorem readSockaddr_staysInside : StaysInside b (readSockaddr b) := by
  intro s hs
  refine wp_mono (wp_readSockaddr b s) ?_ ?_
  · intro addr s' h
    exact h.2.2
  · intro e s' h
    have hto := h.2.2.2
    omega

theorem deserializePeerInfo_staysInside (acc : List PeerInfo) :
    StaysInside b (deserializePeerInfo order alloc b acc) :=
  staysInside_bind (readSockaddr_staysInside b) fun _ =>
    staysInside_bind (readUInt64_staysInside order b) fun _ =>
      staysInside_bind (staysInside_allocating b 1 _) fun _ => staysInside_allocating b 1 _

/-- The decoder stays inside its buffer, whatever the buffer announces and
    whatever memory is refused. -/
theorem peerInfoListDeserialize_staysInside :
    StaysInside b (peerInfoListDeserialize order alloc b) :=
  staysInside_bind (readUInt64_staysInside order b) fun _ =>
    staysInside_bind (staysInside_allocating b 1 _) fun _ =>
      staysInside_loop (deserializePeerInfo_staysInside order alloc b) _ _

end Inside

/-- With memory granted the decoder accepts exactly the buffers that have the
    bytes they announce, and refuses the others as too small. -/
theorem peerInfoListDeserialize_exact (order : ByteOrder) (alloc : Allocator) (b : Buffer)
    (halloc : alloc.Grants sizeofPeerInfo) :
    (peerInfoListDeserialize order alloc b .start).1 =
      if 8 + 36 * numPeersAt b ≤ b.size then .ok (peerInfoListAt b)
      else .error .failureBufferTooSmall := by
  have hspec := wp_peerInfoListDeserialize order alloc b
  rcases hrun : (peerInfoListDeserialize order alloc b .start).1 with e | list
  · rcases wp_error hspec hrun with ⟨he, hlt⟩ | ⟨_, hg⟩
    · rw [if_neg (by omega), he]
    · exact absurd halloc hg
  · rcases wp_ok hspec hrun with ⟨hlist, hpos, hfit⟩
    rw [if_pos (by omega), hlist]

/-- The codec is exact. With memory granted, a buffer is accepted if and only if
    it has the bytes that its first eight announce, counted in natural numbers,
    and is otherwise refused as too small with the output left as it was. No
    index from the size on is read, whatever memory is refused. What is accepted
    encodes to the bytes announced. What the encoder writes for a list is
    accepted as the same list. -/
theorem peerInfoList_codec (order : ByteOrder) (alloc : Allocator) (b : Buffer) :
    (alloc.Grants sizeofPeerInfo → ∀ old,
      ((callPeerInfoListDeserialize order alloc (some old) (some b)).1 = .ok () ↔
        8 ≤ b.size ∧ 8 + 36 * bigEndianValue (slice b.byte 0 8) ≤ b.size) ∧
      (¬ (8 ≤ b.size ∧ 8 + 36 * bigEndianValue (slice b.byte 0 8) ≤ b.size) →
        callPeerInfoListDeserialize order alloc (some old) (some b) =
          (.error .failureBufferTooSmall, some old))) ∧
    (∀ i ∈ (peerInfoListDeserialize order alloc b .start).2.reads, i < b.size) ∧
    (∀ old list,
      callPeerInfoListDeserialize order alloc (some old) (some b) = (.ok (), some (some list)) →
      (∀ encoder call buffer, peerInfoListSerialize order encoder call list = .ok buffer →
        buffer.bytes = slice b.byte 0 (8 + 36 * bigEndianValue (slice b.byte 0 8))) ∧
      ∀ encoder call, encoder.Grants (8 + 36 * bigEndianValue (slice b.byte 0 8)) →
        ∃ buffer, peerInfoListSerialize order encoder call list = .ok buffer) ∧
    (alloc.Grants sizeofPeerInfo → ∀ encoder call list buffer beyond old,
      peerInfoListSerialize order encoder call list = .ok buffer →
      callPeerInfoListDeserialize order alloc (some old)
        (some (Buffer.ofBytes buffer.bytes beyond)) = (.ok (), some (some list))) := by
  rw [← numPeersAt_eq]
  refine ⟨?_, (peerInfoListDeserialize_staysInside order alloc b).reads_lt, ?_, ?_⟩
  · intro halloc old
    have hexact := peerInfoListDeserialize_exact order alloc b halloc
    by_cases hfit : 8 + 36 * numPeersAt b ≤ b.size
    · rw [if_pos hfit] at hexact
      have hcall := callDecoder_some (peerInfoListDeserialize order alloc) some old b _ hexact
      refine ⟨⟨fun _ => ⟨by omega, hfit⟩, fun _ => ?_⟩, fun h => absurd ⟨by omega, hfit⟩ h⟩
      exact congrArg Prod.fst hcall
    · rw [if_neg hfit] at hexact
      have hcall := callDecoder_refused (peerInfoListDeserialize order alloc) some old b _ hexact
      refine ⟨⟨fun h => ?_, fun h => absurd h.2 hfit⟩, fun _ => hcall⟩
      rw [callPeerInfoListDeserialize, hcall] at h
      exact absurd h (by simp only [reduceCtorEq, not_false_eq_true])
  · intro old list h
    rcases callDecoder_ok _ _ _ _ _ h with ⟨list', hrun, hout⟩
    rw [Option.some.injEq, Option.some.injEq] at hout
    rcases wp_ok (wp_peerInfoListDeserialize order alloc b) hrun with ⟨hlist, _, _⟩
    rw [← hout] at hlist
    have hlength := peerInfoListBytes_length order list
    rw [hlist, peerInfoListAt_length] at hlength
    have hholds := holds_peerInfoListAt b order
    rw [Holds, hlength] at hholds
    rw [hlist]
    refine ⟨?_, ?_⟩
    · intro encoder call buffer hser
      rw [bytes_of_peerInfoListSerialize order encoder call _ buffer hser, hholds]
    · intro encoder call hm
      rw [← hlength] at hm
      rcases (peerInfoListSerialize_appends order encoder call _).ok hm with ⟨buffer, hser, _⟩
      exact ⟨buffer, hser⟩
  -- The encoding is the whole buffer, so there is nothing it could not fit into.
  · intro halloc encoder call list buffer beyond old h
    have hbytes := bytes_of_peerInfoListSerialize order encoder call list buffer h
    have hsmall := buffer.size_le
    rw [← buffer.bytes_length] at hsmall
    refine callDecoder_some _ _ _ _ _ (peerInfoListDeserialize_ok order order alloc _ list ?_ hsmall
      ?_ halloc)
    · rw [← hbytes]
      rfl
    · rw [← hbytes]
      exact holds_ofBytes _ _

/-- A count of one that lacks the peer's last byte, and one that has it. -/
theorem peerInfoList_codec_one :
    (callPeerInfoListDeserialize .little .generous (some none)
      (some ⟨fun i => if i = 7 then 1 else 0, 43⟩) = (.error .failureBufferTooSmall, some none)) ∧
    (callPeerInfoListDeserialize .little .generous (some none)
      (some ⟨fun i => if i = 7 then 1 else 0, 44⟩)).1 = .ok () := by
  have hgrants : Allocator.generous.Grants sizeofPeerInfo :=
    Allocator.generous_grants _ (by decide)
  exact ⟨((peerInfoList_codec .little .generous _).1 hgrants none).2 (by decide),
    ((peerInfoList_codec .little .generous _).1 hgrants none).1.mpr (by decide)⟩

end LeoCoin
