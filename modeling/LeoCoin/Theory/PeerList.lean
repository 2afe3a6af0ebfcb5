import LeoCoin.Core.PeerDiscovery
import LeoCoin.Theory.Commands

/-!
# Peer Lists

What the decoder of a list of peers returns.

Every peer is encoded in 36 bytes, so peer `k` of a list lies at offset
`8 + 36 * k`, and the list in a buffer follows from the number in its first
eight bytes. The decoder returns that list if it lies inside the buffer. An
encoded list lies inside its buffer, and is read back on a host of either byte
order.

## Main definitions

* `peerInfoAt`, `peerInfoListAt`: What lies at an offset.

## Theorems

* `wp_deserializePeerInfo`, `wp_peerInfoListDeserialize`: What is returned.
* `peerInfoListAt_of_holds`: An encoded list is read back.
* `peerInfoListDeserialize_ok`: An encoded list is decoded.
-/

namespace LeoCoin

open Decoder

-- The decoders are looked at through the rules of `wp` only.
attribute [local irreducible] wp

def peerInfoAt (b : Buffer) (o : Nat) : PeerInfo where
  listenAddr := sockaddrAt b o
  lastConnected := (fieldAt b (o + 28)).toInt64

/-- The number of peers announced by the buffer. -/
def numPeersAt (b : Buffer) : Nat := (fieldAt b 0).toNat

def peerInfoListAt (b : Buffer) : List PeerInfo :=
  (List.range (numPeersAt b)).map fun k => peerInfoAt b (8 + 36 * k)

/-- One round of the loop decodes the peer at the cursor. -/
theorem wp_deserializePeerInfo (order : ByteOrder) (alloc : Allocator) (b : Buffer)
    (acc : List PeerInfo) (s : Cursor) :
    wp (deserializePeerInfo order alloc b acc) s
      (fun acc' s' => acc' = acc ++ [peerInfoAt b s.pos] ∧ s'.pos = s.pos + 36 ∧
        s'.pos ≤ b.size)
      (fun e _ => (e = .failureBufferTooSmall ∧ b.size < s.pos + 36) ∨
        (e = .failureCouldNotMalloc ∧ ¬ alloc.Grants sizeofPeerInfo)) := by
  refine wp_bind (wp_mono (wp_readSockaddr b s) ?_ ?_)
  · rintro addr s1 ⟨rfl, p1, f1⟩
    refine wp_bind (wp_readUInt64 ?_ fun h => Or.inl ⟨rfl, by omega⟩)
    intro s2 p2 f2
    refine wp_bind (wp_allocate ?_ fun hg => Or.inr ⟨rfl, hg⟩)
    intro _
    refine wp_allocating ((linkedListAppend_obtains alloc _ acc _).mono (by decide)) ?_
      fun hg => Or.inr ⟨rfl, hg⟩
    rw [Cursor.request_pos, Cursor.request_pos, p1]
    exact ⟨rfl, by omega, f2⟩
  · rintro e s1 ⟨rfl, hlt, _⟩
    exact Or.inl ⟨rfl, by omega⟩

/-- The decoder returns the list that lies in the buffer, or gives up because
    the list does not fit or memory is refused. -/
theorem wp_peerInfoListDeserialize (order : ByteOrder) (alloc : Allocator) (b : Buffer) :
    wp (peerInfoListDeserialize order alloc b) .start
      (fun list s' => list = peerInfoListAt b ∧ s'.pos = 8 + 36 * numPeersAt b ∧
        s'.pos ≤ b.size)
      (fun e _ => (e = .failureBufferTooSmall ∧ b.size < 8 + 36 * numPeersAt b) ∨
        (e = .failureCouldNotMalloc ∧ ¬ alloc.Grants sizeofPeerInfo)) := by
  refine wp_bind (wp_readUInt64 ?_ fun h => Or.inl ⟨rfl, ?_⟩)
  · intro s1 p1 f1
    refine wp_bind (wp_allocating ((linkedListCreate_obtains alloc _).mono (by decide)) ?_
      fun hg => Or.inr ⟨rfl, hg⟩)
    -- After `k` rounds the list holds the first `k` peers.
    refine wp_loop (fun k acc s => acc = (List.range k).map (fun k => peerInfoAt b (8 + 36 * k)) ∧
      s.pos = 8 + 36 * k ∧ s.pos ≤ b.size) _ _ ⟨rfl, p1, f1⟩ ?_ ?_
    · rintro k acc s hk ⟨hacc, hp, hf⟩
      have hk' : k < numPeersAt b := hk
      refine wp_mono (wp_deserializePeerInfo order alloc b acc s) ?_ ?_
      · rintro acc' s' ⟨rfl, hp', hf'⟩
        refine ⟨?_, by omega, hf'⟩
        rw [hacc, hp, List.range_succ, List.map_append]
        rfl
      · rintro e s' (⟨rfl, hlt⟩ | hmem)
        · exact Or.inl ⟨rfl, by omega⟩
        · exact Or.inr hmem
    · rintro acc s ⟨hacc, hp, hf⟩
      exact ⟨hacc, hp, hf⟩
  · have hstart : Cursor.start.pos = 0 := rfl
    omega

/-- An encoded peer is read back. -/
theorem peerInfoAt_of_holds (b : Buffer) (o : Nat) (encoding : ByteOrder) (peer : PeerInfo)
    (h : Holds b o (peerInfoBytes encoding peer)) : peerInfoAt b o = peer := by
  simp only [peerInfoBytes, holds_append, sockaddrBytes_length] at h
  rw [peerInfoAt, sockaddrAt_of_holds b o _ h.1, fieldAt_of_holds b _ encoding _ h.2,
    toInt64_toUInt64]

/-- An encoded list small enough to exist is read back. -/
theorem peerInfoListAt_of_holds (b : Buffer) (encoding : ByteOrder) (list : List PeerInfo)
    (hsmall : (peerInfoListBytes encoding list).length ≤ PTRDIFF_MAX)
    (h : Holds b 0 (peerInfoListBytes encoding list)) :
    numPeersAt b = list.length ∧ peerInfoListAt b = list := by
  rw [peerInfoListBytes_length, PTRDIFF_MAX] at hsmall
  simp only [peerInfoListBytes, holds_append, storeUInt64_length, Nat.zero_add] at h
  rcases h with ⟨hnum, hpeers⟩
  have hn : numPeersAt b = list.length := by
    rw [numPeersAt, fieldAt_of_holds b 0 encoding _ hnum, linkedListLength, UInt64.toNat_ofNat',
      Nat.mod_eq_of_lt (by omega)]
  refine ⟨hn, ?_⟩
  refine List.ext_getElem (by rw [peerInfoListAt, List.length_map, List.length_range, hn]) ?_
  intro k h1 h2
  -- The peers lie one after the other, each as wide as the others.
  have hk := holds_flatten b (peerInfoBytes encoding) 36 (peerInfoBytes_length encoding) list 8
    hpeers k h2
  simp only [peerInfoListAt, List.getElem_map, List.getElem_range]
  exact peerInfoAt_of_holds b _ encoding _ hk

/-- On a buffer that holds an encoded list and no more, the decoder returns the
    list, whatever the byte order of the encoding host. -/
theorem peerInfoListDeserialize_ok (order encoding : ByteOrder) (alloc : Allocator) (b : Buffer)
    (list : List PeerInfo) (hsize : b.size = (peerInfoListBytes encoding list).length)
    (hsmall : b.size ≤ PTRDIFF_MAX) (hholds : Holds b 0 (peerInfoListBytes encoding list))
    (halloc : alloc.Grants sizeofPeerInfo) :
    (peerInfoListDeserialize order alloc b .start).1 = .ok list := by
  rcases peerInfoListAt_of_holds b encoding list (hsize ▸ hsmall) hholds with ⟨hn, hlist⟩
  rw [peerInfoListBytes_length] at hsize
  have hspec := wp_peerInfoListDeserialize order alloc b
  rcases hrun : (peerInfoListDeserialize order alloc b .start).1 with e | list'
  · exfalso
    rcases wp_error hspec hrun with ⟨_, hlt⟩ | ⟨_, hg⟩
    · rw [hn] at hlt
      omega
    · exact hg halloc
  · rw [(wp_ok hspec hrun).1, hlist]

end LeoCoin
