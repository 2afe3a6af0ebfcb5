import LeoCoin.Theory.Mining

/-!
# Signing

How much a signature writes.

The signer asks the library for the length of the signature and then has it
written into an array of 512 bytes, and does not compare the two. A signature
is as long as the modulus of the key. What limits a key is the length of its
text, and a text of 4096 characters has room for more than a modulus of 512
bytes; the bound of the array was taken to follow from the one on the text.

So the modulus decides. A key of up to 512 bytes signs into the array, the
length stored is the length written, and the verifier is handed what was
signed. A longer key writes past the array.

## Main definitions

* `RsaPair`: A key pair the library accepts, with the size of its modulus.
* `signatureWritten`: The bytes the signer has written.
* `SignatureSound`: The signature is inside its array and verifies.
* `largeKeySsl`: A library with a key of 576 bytes.

## Theorems

* `RsaPair.signsFor`: A modulus that fits gives signatures that fit.
* `signatureWritten_length`: What is written is as long as the modulus.
* `transactionCreate_sound_iff`: When a created transaction is sound.
* `largeKey_unsound`: A key whose signatures do not fit.
-/

namespace LeoCoin

/-- A pair of texts the library reads as an RSA key with a modulus of `k`
    bytes: a signature is as long as the modulus, and verifies over the bytes
    that were signed. -/
structure RsaPair (ssl : OpenSsl) (publicKey privateKey : SshKey) (public_ private_ : ssl.PKey)
    (k : Nat) : Prop where
  opens : ssl.bioNewMemBuf publicKey = true
  readsPublic : ssl.pemReadBioPubkey publicKey = some public_
  readsPrivate : ssl.pemReadBioPrivateKey privateKey = some private_
  context : ssl.evpMdCtxNew public_ = true
  init : 0 < ssl.evpVerifyInit public_
  update : ∀ msg, 0 < ssl.evpVerifyUpdate public_ msg
  reports : ∀ msg n, ssl.evpDigestSignLength private_ msg = some n → n = k
  writes : ∀ msg written, ssl.evpDigestSignFinal private_ msg = some written → written.length = k
  verifies : ∀ msg written, ssl.evpDigestSignFinal private_ msg = some written →
    ssl.evpVerifyFinal public_ msg written = 1

/-- The bytes the library writes to the signature array when a transaction is
    signed. -/
def signatureWritten (host : Host) (t : Transaction) (senderPrivateKey : SshKey) : List UInt8 :=
  match host.ssl.pemReadBioPrivateKey senderPrivateKey with
  | none => []
  | some privateKey =>
    (host.ssl.evpDigestSignFinal privateKey (transactionPrefix host t)).getD []

/-- The stored length is at most the size of the signature array, no more bytes
    were written to the array, and the signature verifies. -/
structure SignatureSound (host : Host) (t : Transaction) (senderPrivateKey : SshKey) : Prop where
  length : t.senderSignature.length.toNat ≤ MAX_SSH_SIGNATURE_LENGTH
  written : (signatureWritten host t senderPrivateKey).length ≤ MAX_SSH_SIGNATURE_LENGTH
  verifies : transactionVerifySignature host t = .ok true

/-- Signatures of a modulus that fits the array fit the array. -/
theorem RsaPair.signsFor {ssl : OpenSsl} {publicKey privateKey : SshKey}
    {public_ private_ : ssl.PKey} {k : Nat}
    (h : RsaPair ssl publicKey privateKey public_ private_ k) (hk : k ≤ MAX_SSH_SIGNATURE_LENGTH) :
    SignsFor ssl publicKey privateKey public_ where
  opens := h.opens
  reads := h.readsPublic
  context := h.context
  init := h.init
  update := h.update
  verifies := by
    intro key msg written hread hfinal
    rw [h.readsPrivate, Option.some.injEq] at hread
    subst hread
    refine ⟨?_, h.verifies msg written hfinal⟩
    rw [h.writes msg written hfinal]
    exact hk

/-- A transaction that was created carries a signature that was written, of the
    length of the modulus. -/
theorem signatureWritten_length (host : Host) (alloc : Allocator) (call : Nat) (now : Int64)
    (publicKey recipient : SshKey) (amount : UInt64) (privateKey : SshKey)
    (public_ private_ : host.ssl.PKey) (k : Nat)
    (hkeys : RsaPair host.ssl publicKey privateKey public_ private_ k) (t : Transaction)
    (h : transactionCreate host alloc call now publicKey recipient amount privateKey = .ok t) :
    (signatureWritten host t privateKey).length = k ∧
      t.senderSignature.length = UInt64.ofNat k := by
  rcases transactionCreate_signed host alloc call now publicKey recipient amount privateKey t h with
    ⟨unsigned, signature, hsign, rfl, _⟩
  rcases transactionGenerateSignature_ok host unsigned privateKey signature hsign with
    ⟨key, written, hread, hfinal, rfl⟩
  rw [hkeys.readsPrivate, Option.some.injEq] at hread
  subst hread
  have hlen := hkeys.writes _ written hfinal
  refine ⟨?_, by rw [hlen]⟩
  -- The signature is no part of what was signed.
  have hcovered : ∀ s, transactionPrefix host { unsigned with senderSignature := s } =
      transactionPrefix host unsigned := fun _ => rfl
  rw [signatureWritten, hkeys.readsPrivate, hcovered]
  simp only [hfinal, Option.getD_some, hlen]

/-- A transaction that was created under a key pair has a signature that was
    written inside its array, with a length that fits, and that verifies,
    exactly if the modulus of the key is no longer than the array. -/
theorem transactionCreate_sound_iff (host : Host) (alloc : Allocator) (call : Nat) (now : Int64)
    (publicKey recipient : SshKey) (amount : UInt64) (privateKey : SshKey)
    (public_ private_ : host.ssl.PKey) (k : Nat)
    (hkeys : RsaPair host.ssl publicKey privateKey public_ private_ k) (t : Transaction)
    (h : transactionCreate host alloc call now publicKey recipient amount privateKey = .ok t) :
    SignatureSound host t privateKey ↔ k ≤ MAX_SSH_SIGNATURE_LENGTH := by
  rcases signatureWritten_length host alloc call now publicKey recipient amount privateKey public_
    private_ k hkeys t h with ⟨hwritten, hlength⟩
  constructor
  · intro hsound
    rw [← hwritten]
    exact hsound.written
  · intro hk
    refine ⟨?_, by rw [hwritten]; exact hk, ?_⟩
    · rw [hlength, UInt64.toNat_ofNat']
      exact Nat.le_trans (Nat.mod_le _ _) hk
    · exact (transactionCreate_ok host alloc call now publicKey privateKey recipient amount public_
        (hkeys.signsFor hk) t h).2.2.2

/-- The sample library has a key of 256 bytes, and what it signs is sound. -/
theorem transactionCreate_sound_iff_sample :
    ∃ t, transactionCreate sampleHost .generous 0 0 (Bytes.zero 4096) (Bytes.zero 4096) 1
        (Bytes.zero 4096) = .ok t ∧ SignatureSound sampleHost t (Bytes.zero 4096) := by
  have hkeys : RsaPair sampleSsl (Bytes.zero 4096) (Bytes.zero 4096) () () 256 :=
    ⟨rfl, rfl, rfl, rfl, Int.zero_lt_one, fun _ => Int.zero_lt_one,
      fun _ _ h => (Option.some.inj h).symm,
      fun _ _ h => by rw [← Option.some.inj h, List.length_replicate], fun _ _ _ => rfl⟩
  refine ⟨_, rfl, ?_⟩
  exact (transactionCreate_sound_iff sampleHost .generous 0 0 (Bytes.zero 4096) (Bytes.zero 4096) 1
    (Bytes.zero 4096) () () 256 hkeys _ rfl).mpr (by decide)

/-- The sample library with a key of 4608 bits: a signature is 576 bytes, and
    no other bytes verify. -/
def largeKeySsl : OpenSsl :=
  { sampleSsl with
    evpVerifyFinal := fun _ _ signature => if signature = List.replicate 576 1 then 1 else 0
    evpDigestSignLength := fun _ _ => some 576
    evpDigestSignFinal := fun _ _ => some (List.replicate 576 1) }

/-- A transaction is created with that key, and its signature does not fit. -/
theorem largeKey_unsound :
    ¬ ∀ (host : Host) (alloc : Allocator) (call : Nat) (now : Int64)
      (publicKey recipient : SshKey) (amount : UInt64) (privateKey : SshKey)
      (public_ private_ : host.ssl.PKey) (k : Nat) (t : Transaction),
      RsaPair host.ssl publicKey privateKey public_ private_ k →
      transactionCreate host alloc call now publicKey recipient amount privateKey = .ok t →
      SignatureSound host t privateKey := by
  intro h
  have hkeys : RsaPair largeKeySsl (Bytes.zero 4096) (Bytes.zero 4096) () () 576 :=
    ⟨rfl, rfl, rfl, rfl, Int.zero_lt_one, fun _ => Int.zero_lt_one,
      fun _ _ h => (Option.some.inj h).symm,
      fun _ _ h => by rw [← Option.some.inj h, List.length_replicate],
      fun _ _ h => by simp only [largeKeySsl, ← Option.some.inj h, if_true]⟩
  have hsound := h { sampleHost with ssl := largeKeySsl } .generous 0 0 (Bytes.zero 4096)
    (Bytes.zero 4096) 1 (Bytes.zero 4096) () () 576 _ hkeys rfl
  have hwritten := hsound.written
  rw [(signatureWritten_length { sampleHost with ssl := largeKeySsl } .generous 0 0
    (Bytes.zero 4096) (Bytes.zero 4096) 1 (Bytes.zero 4096) () () 576 hkeys _ rfl).1] at hwritten
  exact absurd hwritten (by decide)

end LeoCoin
