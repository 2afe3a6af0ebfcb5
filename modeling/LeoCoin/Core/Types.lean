import LeoCoin.Library.Memory

/-!
# Data Types

The data the program works on, field by field.

Arrays of a fixed size are `Bytes n`, so an array of the wrong length cannot
be built. A `time_t` is a signed 64-bit integer and a `size_t` an unsigned
one. The linked lists of blocks and of transactions are lists: nothing here
depends on where a node lies.

## Main definitions

* `SshKey`, `SshSignature`: Cryptographic material of fixed capacity.
* `Sha256`: A digest.
* `Transaction`, `Block`, `Blockchain`: The chain.
* `SynchronizedBlockchain`: The published chain with its version.
-/

namespace LeoCoin

def MAX_SSH_KEY_LENGTH : Nat := 4096

def MAX_SSH_SIGNATURE_LENGTH : Nat := 512

def SHA256_DIGEST_LENGTH : Nat := 32

def AMOUNT_GENERATED_DURING_MINTING : UInt64 := 1

def GENESIS_BLOCK_PROOF_OF_WORK : UInt64 := 2017

/-- The text of a key, in an array larger than any key. -/
abbrev SshKey : Type := Bytes MAX_SSH_KEY_LENGTH

theorem SshKey.toList_length (k : SshKey) : k.toList.length = 4096 := List.Vector.toList_length k

/-- A signature: how many bytes of the array belong to it, and the array. -/
structure SshSignature where
  length : UInt64
  bytes : Bytes MAX_SSH_SIGNATURE_LENGTH
  deriving DecidableEq

abbrev Sha256 : Type := Bytes SHA256_DIGEST_LENGTH

theorem SshSignature.bytes_length (s : SshSignature) : s.bytes.toList.length = 512 :=
  List.Vector.toList_length s.bytes

theorem Sha256.toList_length (h : Sha256) : h.toList.length = 32 := List.Vector.toList_length h

structure Transaction where
  createdAt : Int64
  senderPublicKey : SshKey
  recipientPublicKey : SshKey
  amount : UInt64
  senderSignature : SshSignature
  deriving DecidableEq

structure Block where
  createdAt : Int64
  transactionList : List Transaction
  proofOfWork : UInt64
  previousBlockHash : Sha256
  deriving DecidableEq

structure Blockchain where
  blockList : List Block
  numLeadingZeroBytesRequiredInBlockHash : UInt64
  deriving DecidableEq

/-- The published chain, with the number of times it has been replaced. -/
structure SynchronizedBlockchain where
  blockchain : Blockchain
  version : UInt64
  deriving DecidableEq

/-- The sizes the compiler gives the structures. No member of any of them is
    preceded by padding. -/
def sizeofTransaction : Nat := 8728

def sizeofBlock : Nat := 56

def sizeofBlockchain : Nat := 16

def sizeofLinkedList : Nat := 24

def sizeofNode : Nat := 16

end LeoCoin
