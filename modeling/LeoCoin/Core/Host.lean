import LeoCoin.Core.Types
import LeoCoin.Library.ByteOrder

/-!
# Host

What the program takes from the machine and from the libraries it is linked
with.

OpenSSL is not part of the program, so its functions are parameters: a digest
function, the two key readers, and the signing and verifying functions, each
with the outcomes it can return. Nothing is assumed about them here. A result
that needs a law of OpenSSL names it as a hypothesis.

The last three fields are memory the program never means to look at: what
lies on the stack behind a digest, and on the heap behind a signature. Code
that overruns one of these arrays reads it.

## Main definitions

* `OpenSsl`: The library functions the program calls.
* `Host`: The library, the byte order and the memory behind the arrays.
* `sampleHost`: A host for evaluating definitions.
-/

namespace LeoCoin

/-- The functions of OpenSSL. Results of type `Int` are compared with zero or
    one by the callers; a `none` is a null pointer or a failed call. -/
structure OpenSsl where
  PKey : Type
  /-- The digest `EVP_DigestFinal_ex` returns for everything fed so far. -/
  sha256 : List UInt8 → Sha256
  bioNewMemBuf : SshKey → Bool
  pemReadBioPubkey : SshKey → Option PKey
  pemReadBioPrivateKey : SshKey → Option PKey
  /-- Whether `EVP_PKEY_base_id` is `EVP_PKEY_RSA`. -/
  isRsa : PKey → Bool
  evpMdCtxNew : PKey → Bool
  evpVerifyInit : PKey → Int
  evpVerifyUpdate : PKey → List UInt8 → Int
  /-- The key, the bytes fed, and the bytes of the signature. -/
  evpVerifyFinal : PKey → List UInt8 → List UInt8 → Int
  evpDigestSignInit : PKey → Int
  evpDigestSignUpdate : PKey → List UInt8 → Int
  /-- The first `EVP_DigestSignFinal`, which reports a length. -/
  evpDigestSignLength : PKey → List UInt8 → Option Nat
  /-- The second `EVP_DigestSignFinal`, with the bytes it writes. -/
  evpDigestSignFinal : PKey → List UInt8 → Option (List UInt8)

structure Host where
  ssl : OpenSsl
  byteOrder : ByteOrder
  /-- The heap behind the signature array of a transaction. -/
  afterSignature : Transaction → Nat → UInt8
  /-- The stack behind `current_block_hash` in `blockchain_verify`. -/
  afterCurrentHash : Nat → UInt8
  /-- The stack behind `empty_block_hash` in `blockchain_verify`. -/
  afterEmptyHash : Nat → UInt8
  /-- The stack behind the argument of `blockchain_is_valid_block_hash`. -/
  afterHashArgument : Nat → UInt8

/-- A library for evaluating definitions: the digest records the length of its
    input in the last byte, every key reads, and every signature is 256 zero
    bytes and verifies. -/
def sampleSsl : OpenSsl where
  PKey := Unit
  sha256 bs := ⟨List.replicate 31 0 ++ [UInt8.ofNat bs.length], rfl⟩
  bioNewMemBuf _ := true
  pemReadBioPubkey _ := some ()
  pemReadBioPrivateKey _ := some ()
  isRsa _ := true
  evpMdCtxNew _ := true
  evpVerifyInit _ := 1
  evpVerifyUpdate _ _ := 1
  evpVerifyFinal _ _ _ := 1
  evpDigestSignInit _ := 1
  evpDigestSignUpdate _ _ := 1
  evpDigestSignLength _ _ := some 256
  evpDigestSignFinal _ _ := some (List.replicate 256 0)

/-- A little endian host with that library and zeros behind every array. -/
def sampleHost : Host where
  ssl := sampleSsl
  byteOrder := .little
  afterSignature _ _ := 0
  afterCurrentHash _ := 0
  afterEmptyHash _ := 0
  afterHashArgument _ := 0

end LeoCoin
