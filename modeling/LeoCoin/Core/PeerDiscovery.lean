import LeoCoin.Core.Networking
import LeoCoin.Core.Serialize

/-!
# Peer Discovery

Peers, and the encoding of a list of them.

A peer is the address it listens on and the time at which it last connected.
Two peers are compared by the memory of their addresses, so the time plays no
part in it. The address arrives in network byte order and is kept that way in
memory, and every encoder converts its integers once more. What matters is that
encoders and decoders convert alike.

The encoder of a list grows its buffer like the encoder of a chain does, and
the decoder reads every member behind its own comparison.

## Main definitions

* `PeerInfo`: A peer.
* `comparePeerInfo`: The comparison of two peers.
* `peerInfoListSerialize`, `peerInfoListDeserialize`: The encoding of a list.
* `peerInfoListBytes`: What the encoder writes.

## Theorems

* `sockaddrMemory_inj`: Equal memory means equal addresses.
* `comparePeerInfo_eq_zero_iff`: The comparison is of addresses.
* `peerInfoListSerialize_appends`: The encoder appends the encoding.
-/

namespace LeoCoin

open Decoder SerializationBuffer

structure PeerInfo where
  listenAddr : SockaddrIn6
  lastConnected : Int64
  deriving DecidableEq

def sizeofSockaddrIn6 : Nat := 28

/-- The size of a peer. Four bytes of padding follow the address. -/
def sizeofPeerInfo : Nat := 40

/-- The memory of a socket address. -/
def sockaddrMemory (order : ByteOrder) (addr : SockaddrIn6) : List UInt8 :=
  order.image 2 addr.sin6Family.toNat ++ order.image 2 addr.sin6Port.toNat ++
    order.image 4 addr.sin6Flowinfo.toNat ++ addr.sin6Addr.toList ++
    order.image 4 addr.sin6ScopeId.toNat

theorem sockaddrMemory_length (order : ByteOrder) (addr : SockaddrIn6) :
    (sockaddrMemory order addr).length = sizeofSockaddrIn6 := by
  simp only [sockaddrMemory, List.length_append, ByteOrder.image_length,
    List.Vector.toList_length, sizeofSockaddrIn6]

/-- Equal memory means equal addresses. -/
theorem sockaddrMemory_inj (order : ByteOrder) (a b : SockaddrIn6)
    (h : sockaddrMemory order a = sockaddrMemory order b) : a = b := by
  unfold sockaddrMemory at h
  -- Take the members off from the back, each of a known length.
  rcases List.append_inj' h (by simp only [ByteOrder.image_length]) with ⟨h1, hscope⟩
  rcases List.append_inj' h1 (by simp only [List.Vector.toList_length]) with ⟨h2, haddr⟩
  rcases List.append_inj' h2 (by simp only [ByteOrder.image_length]) with ⟨h3, hflow⟩
  rcases List.append_inj' h3 (by simp only [ByteOrder.image_length]) with ⟨hfamily, hport⟩
  rcases a with ⟨af, ap, ai, aa, as⟩
  rcases b with ⟨bf, bp, bi, ba, bs⟩
  have e1 := UInt16.toNat_inj.mp (order.image_inj 2 _ _ af.toNat_lt bf.toNat_lt hfamily)
  have e2 := UInt16.toNat_inj.mp (order.image_inj 2 _ _ ap.toNat_lt bp.toNat_lt hport)
  have e3 := UInt32.toNat_inj.mp (order.image_inj 4 _ _ ai.toNat_lt bi.toNat_lt hflow)
  have e4 := List.Vector.eq _ _ haddr
  have e5 := UInt32.toNat_inj.mp (order.image_inj 4 _ _ as.toNat_lt bs.toNat_lt hscope)
  simp only at e1 e2 e3 e4 e5
  rw [e1, e2, e3, e4, e5]

/-- Compare two peers by the memory of their addresses. -/
def comparePeerInfo (order : ByteOrder) (peer1 peer2 : PeerInfo) : Int :=
  memcmp (extend (sockaddrMemory order peer1.listenAddr) fun _ => 0)
    (extend (sockaddrMemory order peer2.listenAddr) fun _ => 0) sizeofSockaddrIn6

/-- The comparison is zero exactly for peers of one address. -/
theorem comparePeerInfo_eq_zero_iff (order : ByteOrder) (peer1 peer2 : PeerInfo) :
    comparePeerInfo order peer1 peer2 = 0 ↔ peer1.listenAddr = peer2.listenAddr := by
  have h := memcmp_extend_eq_zero_iff
    (⟨sockaddrMemory order peer1.listenAddr, sockaddrMemory_length _ _⟩ : Bytes _)
    ⟨sockaddrMemory order peer2.listenAddr, sockaddrMemory_length _ _⟩ (fun _ => 0) fun _ => 0
  refine h.trans ?_
  constructor
  · intro heq
    exact sockaddrMemory_inj order _ _ (congrArg List.Vector.toList heq)
  · intro heq
    rw [heq]

/-- What the encoder writes for a peer. -/
def peerInfoBytes (order : ByteOrder) (peer : PeerInfo) : List UInt8 :=
  sockaddrBytes peer.listenAddr ++
    storeUInt64 order (htobe64 order peer.lastConnected.toUInt64)

@[simp]
theorem peerInfoBytes_length (order : ByteOrder) (peer : PeerInfo) :
    (peerInfoBytes order peer).length = 36 := by
  simp only [peerInfoBytes, List.length_append, sockaddrBytes_length, storeUInt64_length]

/-- One round of the loop over peers. -/
def serializePeerInfo (order : ByteOrder) (alloc : Allocator) (buffer : SerializationBuffer)
    (peer : PeerInfo) : Except ReturnCode SerializationBuffer :=
  buffer.append alloc 36 ⟨peerInfoBytes order peer, peerInfoBytes_length order peer⟩ (by decide)

/-- The caller's pointers are given the bytes and the size of the result. -/
def peerInfoListSerialize (order : ByteOrder) (alloc : Allocator) (call : Nat)
    (peerInfoList : List PeerInfo) : Except ReturnCode SerializationBuffer := do
  let numPeers := UInt64.ofNat (linkedListLength peerInfoList)
  let buffer ← (SerializationBuffer.empty call).append alloc 8
    ⟨storeUInt64 order (htobe64 order numPeers), storeUInt64_length _ _⟩ (by decide)
  peerInfoList.foldlM (serializePeerInfo order alloc) buffer

/-- One round of the loop over announced peers, appending to the list. -/
def deserializePeerInfo (order : ByteOrder) (alloc : Allocator) (buffer : Buffer)
    (peerInfoList : List PeerInfo) : Decoder ReturnCode (List PeerInfo) := do
  let listenAddr ← readSockaddr buffer
  let lastConnected ← readUInt64 order buffer
  allocate alloc sizeofPeerInfo .failureCouldNotMalloc
  allocating 1 fun call => linkedListAppend alloc call peerInfoList
    { listenAddr := listenAddr, lastConnected := lastConnected.toInt64 }

def peerInfoListDeserialize (order : ByteOrder) (alloc : Allocator) (buffer : Buffer) :
    Decoder ReturnCode (List PeerInfo) := do
  let numPeers ← readUInt64 order buffer
  let newPeerInfoList ← allocating 1 fun call => linkedListCreate alloc call
  loop (deserializePeerInfo order alloc buffer) numPeers.toNat newPeerInfoList

/-- The encoding of a list: the number of peers, then the peers. -/
def peerInfoListBytes (order : ByteOrder) (peerInfoList : List PeerInfo) : List UInt8 :=
  storeUInt64 order (htobe64 order (UInt64.ofNat (linkedListLength peerInfoList))) ++
    (peerInfoList.map (peerInfoBytes order)).flatten

theorem peerInfoListBytes_length (order : ByteOrder) (peerInfoList : List PeerInfo) :
    (peerInfoListBytes order peerInfoList).length = 8 + 36 * peerInfoList.length := by
  rw [peerInfoListBytes, List.length_append, storeUInt64_length,
    flatten_map_length _ _ (peerInfoBytes_length order)]

/-- The encoder returns the encoding of the list, unless memory is refused
    that the encoding needs. -/
theorem peerInfoListSerialize_appends (order : ByteOrder) (alloc : Allocator) (call : Nat)
    (peerInfoList : List PeerInfo) :
    Appends alloc (.empty call) (peerInfoListBytes order peerInfoList)
      (peerInfoListSerialize order alloc call peerInfoList) :=
  (append_appends alloc (.empty call) 8 _ _).bind
    fun b' => foldlM_appends (fun b _ => append_appends alloc b 36 _ _) peerInfoList b'

/-- Whatever the encoder returns is the encoding of the list. -/
theorem bytes_of_peerInfoListSerialize (order : ByteOrder) (alloc : Allocator) (call : Nat)
    (peerInfoList : List PeerInfo) (buffer : SerializationBuffer)
    (h : peerInfoListSerialize order alloc call peerInfoList = .ok buffer) :
    buffer.bytes = peerInfoListBytes order peerInfoList :=
  (peerInfoListSerialize_appends order alloc call peerInfoList).bytes_eq h

end LeoCoin
