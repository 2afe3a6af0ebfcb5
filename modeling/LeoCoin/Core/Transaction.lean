import LeoCoin.Core.Endian
import LeoCoin.Core.Host
import LeoCoin.Core.ReturnCodes

/-!
# Transaction

Transactions and their signatures.

A signature covers the memory of the transaction up to the signature member,
in the byte order of the host. Signing and verifying go through the same
prefix, so what one signs is what the other checks.

The verifier is handed a pointer to the signature array and the stored length,
truncated to an `unsigned int`. Nothing compares that length with the array,
so the bytes handed over are a slice of the memory that begins at the array.

## Main definitions

* `transactionPrefix`: The memory a signature covers.
* `transactionMemory`: The memory of a whole transaction.
* `signatureArgument`: The bytes handed to the verifier.
* `transactionGenerateSignature`, `transactionVerifySignature`: Signatures.
* `transactionCreate`: A signed transaction.

## Theorems

* `transactionMemory_length`: A transaction occupies its size.
* `transactionMemory_inj`: Equal memory means equal transactions.
-/

namespace LeoCoin

/-- The first `offsetof(transaction_t, sender_signature)` bytes. -/
def transactionPrefix (host : Host) (t : Transaction) : List UInt8 :=
  storeUInt64 host.byteOrder t.createdAt.toUInt64 ++ t.senderPublicKey.toList ++
    t.recipientPublicKey.toList ++ storeUInt64 host.byteOrder t.amount

def transactionMemory (host : Host) (t : Transaction) : List UInt8 :=
  transactionPrefix host t ++ storeUInt64 host.byteOrder t.senderSignature.length ++
    t.senderSignature.bytes.toList

/-- The bytes a signer writes, over what the array held. Bytes past the array
    are written past it and do not show up in it. -/
def writeSignature (old : Bytes MAX_SSH_SIGNATURE_LENGTH) (written : List UInt8) :
    Bytes MAX_SSH_SIGNATURE_LENGTH :=
  ⟨(written ++ old.toList.drop written.length).take MAX_SSH_SIGNATURE_LENGTH, by
    simp only [List.length_take, List.length_append, List.length_drop,
      List.Vector.toList_length]
    omega⟩

def transactionGenerateSignature (host : Host) (t : Transaction) (senderPrivateKey : SshKey) :
    Except ReturnCode SshSignature :=
  if ¬ host.ssl.bioNewMemBuf senderPrivateKey then .error .failureOpensslFunction
  else match host.ssl.pemReadBioPrivateKey senderPrivateKey with
  | none => .error .failureOpensslFunction
  | some privateKey =>
    if ¬ host.ssl.isRsa privateKey then .error .failureOpensslFunction
    else if ¬ host.ssl.evpMdCtxNew privateKey then .error .failureOpensslFunction
    else if host.ssl.evpDigestSignInit privateKey ≤ 0 then .error .failureOpensslFunction
    else if host.ssl.evpDigestSignUpdate privateKey (transactionPrefix host t) ≤ 0 then
      .error .failureOpensslFunction
    -- The first call of the final function only asks for the length.
    else match host.ssl.evpDigestSignLength privateKey (transactionPrefix host t) with
    | none => .error .failureOpensslFunction
    | some _ => match host.ssl.evpDigestSignFinal privateKey (transactionPrefix host t) with
      | none => .error .failureOpensslFunction
      | some written => .ok
          { length := UInt64.ofNat written.length
            bytes := writeSignature t.senderSignature.bytes written }

/-- A new transaction at the time `now`. The memory comes from `calloc`, so
    the signature is zero while the transaction is signed. -/
def transactionCreate (host : Host) (alloc : Allocator) (call : Nat) (now : Int64)
    (senderPublicKey recipientPublicKey : SshKey) (amount : UInt64) (senderPrivateKey : SshKey) :
    Except ReturnCode Transaction :=
  if ¬ alloc.grants call sizeofTransaction then .error .failureCouldNotMalloc
  else
    let newTransaction : Transaction :=
      { createdAt := now
        senderPublicKey := senderPublicKey
        recipientPublicKey := recipientPublicKey
        amount := amount
        senderSignature := { length := 0, bytes := Bytes.zero MAX_SSH_SIGNATURE_LENGTH } }
    match transactionGenerateSignature host newTransaction senderPrivateKey with
    | .error code => .error code
    | .ok signature => .ok { newTransaction with senderSignature := signature }

/-- The bytes `EVP_VerifyFinal` is handed: as many as the stored length says,
    from the signature array on. -/
def signatureArgument (host : Host) (t : Transaction) : List UInt8 :=
  slice (extend t.senderSignature.bytes.toList (host.afterSignature t)) 0
    t.senderSignature.length.toUInt32.toNat

def transactionVerifySignature (host : Host) (t : Transaction) : Except ReturnCode Bool :=
  if ¬ host.ssl.bioNewMemBuf t.senderPublicKey then .error .failureOpensslFunction
  else match host.ssl.pemReadBioPubkey t.senderPublicKey with
  | none => .error .failureOpensslFunction
  | some publicKey =>
    if ¬ host.ssl.evpMdCtxNew publicKey then .error .failureOpensslFunction
    else if host.ssl.evpVerifyInit publicKey ≤ 0 then .error .failureOpensslFunction
    else if host.ssl.evpVerifyUpdate publicKey (transactionPrefix host t) ≤ 0 then
      .error .failureOpensslFunction
    -- A check that fails inside the library counts as an invalid signature.
    else .ok (host.ssl.evpVerifyFinal publicKey (transactionPrefix host t)
      (signatureArgument host t) == 1)

theorem transactionPrefix_length (host : Host) (t : Transaction) :
    (transactionPrefix host t).length = 8208 := by
  simp only [transactionPrefix, List.length_append, storeUInt64_length, SshKey.toList_length]

theorem transactionMemory_length (host : Host) (t : Transaction) :
    (transactionMemory host t).length = sizeofTransaction := by
  simp only [transactionMemory, List.length_append, transactionPrefix_length, storeUInt64_length,
    SshSignature.bytes_length, sizeofTransaction]

theorem createdAt_toUInt64_inj (x y : Int64) (h : x.toUInt64 = y.toUInt64) : x = y := by
  cases x
  cases y
  exact congrArg Int64.ofUInt64 h

/-- Equal memory means equal transactions: the members have fixed offsets, so
    the memory can be taken apart member by member. -/
theorem transactionMemory_inj (host : Host) (t u : Transaction)
    (h : transactionMemory host t = transactionMemory host u) : t = u := by
  unfold transactionMemory transactionPrefix at h
  -- Take the members off from the back, each of a known length.
  rcases List.append_inj' h (by simp only [SshSignature.bytes_length]) with ⟨h1, hbytes⟩
  rcases List.append_inj' h1 (by simp only [storeUInt64_length]) with ⟨h2, hlength⟩
  rcases List.append_inj' h2 (by simp only [storeUInt64_length]) with ⟨h3, hamount⟩
  rcases List.append_inj' h3 (by simp only [SshKey.toList_length]) with ⟨h4, hrecipient⟩
  rcases List.append_inj' h4 (by simp only [SshKey.toList_length]) with ⟨hcreated, hsender⟩
  rcases t with ⟨tc, ts, tr, ta, ⟨tl, tb⟩⟩
  rcases u with ⟨uc, us, ur, ua, ⟨ul, ub⟩⟩
  have e1 := createdAt_toUInt64_inj _ _ (storeUInt64_inj _ _ _ hcreated)
  have e2 := List.Vector.eq _ _ hsender
  have e3 := List.Vector.eq _ _ hrecipient
  have e4 := storeUInt64_inj _ _ _ hamount
  have e5 := storeUInt64_inj _ _ _ hlength
  have e6 := List.Vector.eq _ _ hbytes
  simp only at e1 e2 e3 e4 e5 e6
  rw [e1, e2, e3, e4, e5, e6]

end LeoCoin
