import LeoCoin.Theory.RoundTrip
import LeoCoin.Theory.Validity

/-!
# Host Order

What a chain looks like to the host that receives it.

The encoder and the decoder of a chain convert every integer, so the chain that
is decoded is the chain that was encoded, between hosts of any byte orders. The
digests and the signatures do not convert. They are taken over the memory of
the structures, and there an integer lies in the order of the host. Two hosts
see the same bytes exactly if they have one byte order, or if every integer
that is hashed reads the same from both ends, which hardly any time or proof of
work does.

Where the bytes are the same the verdict is too, if the hosts have the same
library and no check leaves its array.

## Main definitions

* `Transaction.OrderFree`, `Block.OrderFree`: All integers read the same from
  both ends.
* `Transferred`: A chain is encoded on one host and decoded on another.
* `HostIndependent`: Both hosts feed the same bytes to the digest and to the
  signature check, and the second one accepts what the first one does.

## Theorems

* `transferred_eq`: The decoded chain is the encoded one.
* `transactionPrefix_eq_iff`, `transactionMemory_eq_iff`,
  `blockPreimage_eq_iff`: When two hosts see the same bytes.
* `reportsValid_of_same_bytes`: The same bytes get the same verdict.
* `hostIndependent_iff`: The condition is exact.
-/

namespace LeoCoin

/-- The integers of a transaction read the same from both ends. -/
structure Transaction.OrderFree (t : Transaction) : Prop where
  createdAt : ByteSymmetric 8 t.createdAt.toUInt64.toNat
  amount : ByteSymmetric 8 t.amount.toNat
  length : ByteSymmetric 8 t.senderSignature.length.toNat

/-- The integers of a block read the same from both ends. -/
structure Block.OrderFree (b : Block) : Prop where
  createdAt : ByteSymmetric 8 b.createdAt.toUInt64.toNat
  proofOfWork : ByteSymmetric 8 b.proofOfWork.toNat
  transactionList : ∀ t ∈ b.transactionList, t.OrderFree

/-- The transactions of a chain, from its first block on. -/
def Blockchain.transactions (c : Blockchain) : List Transaction :=
  c.blockList.flatMap Block.transactionList

/-- A chain is encoded on the sending host, and another one is decoded from
    those bytes on the receiving host. -/
def Transferred (sender receiver : Host) (c c' : Blockchain) : Prop :=
  ∃ encoder call buffer decoder now beyond,
    blockchainSerialize sender.byteOrder encoder call c = .ok buffer ∧
    (blockchainDeserialize receiver.byteOrder decoder now (.ofBytes buffer.bytes beyond)
      .start).1 = .ok c'

/-- The receiving host feeds the bytes to the digest that the sending host
    feeds to it, block by block, and the same bytes to the signature check. If
    it has the same library, it accepts the chain if the sending host does, as
    far as the checks stay inside the arrays. -/
structure HostIndependent (sender receiver : Host) (c c' : Blockchain) : Prop where
  preimages : c'.blockList.map (blockPreimage receiver) = c.blockList.map (blockPreimage sender)
  signed : c'.transactions.map (transactionPrefix receiver) =
    c.transactions.map (transactionPrefix sender)
  valid : receiver.ssl = sender.ssl → SignaturesFit c →
    c.numLeadingZeroBytesRequiredInBlockHash.toNat ≤ SHA256_DIGEST_LENGTH →
    ReportsValid sender c → ReportsValid receiver c'

/-- The decoded chain is the encoded one. -/
theorem transferred_eq (sender receiver : Host) (c c' : Blockchain)
    (h : Transferred sender receiver c c') : c' = c := by
  rcases h with ⟨encoder, call, buffer, decoder, now, beyond, hser, hdes⟩
  have hbytes := bytes_of_blockchainSerialize _ _ _ _ _ hser
  have hsmall : (blockchainBytes sender.byteOrder c).length ≤ PTRDIFF_MAX := by
    rw [← hbytes, buffer.bytes_length]
    exact buffer.size_le
  have hholds : Holds (.ofBytes buffer.bytes beyond) 0 (blockchainBytes sender.byteOrder c) := by
    rw [← hbytes]
    exact holds_ofBytes _ beyond
  rw [(Decoder.wp_ok (wp_blockchainDeserialize _ decoder now _) hdes).1]
  exact (blockchainAt_of_holds _ sender.byteOrder c hsmall hholds).1

/-- Two hosts store an integer alike if they have one order or it reads the
    same from both ends. -/
theorem storeUInt64_eq_iff (o o' : ByteOrder) (x : UInt64) :
    storeUInt64 o x = storeUInt64 o' x ↔ o = o' ∨ ByteSymmetric 8 x.toNat :=
  ByteOrder.image_eq_iff o o' 8 x.toNat

section Hosts

variable (sender receiver : Host)

/-- Hosts of one byte order see the same memory. -/
theorem transactionPrefix_of_order (t : Transaction)
    (h : sender.byteOrder = receiver.byteOrder) :
    transactionPrefix receiver t = transactionPrefix sender t := by
  rw [transactionPrefix, transactionPrefix, h]

theorem transactionMemory_of_order (t : Transaction)
    (h : sender.byteOrder = receiver.byteOrder) :
    transactionMemory receiver t = transactionMemory sender t := by
  rw [transactionMemory, transactionMemory, transactionPrefix_of_order sender receiver t h, h]

/-- The bytes a signature covers are the same exactly if the time and the amount
    are stored alike. -/
theorem transactionPrefix_eq_iff (t : Transaction) :
    transactionPrefix receiver t = transactionPrefix sender t ↔
      receiver.byteOrder = sender.byteOrder ∨
        (ByteSymmetric 8 t.createdAt.toUInt64.toNat ∧ ByteSymmetric 8 t.amount.toNat) := by
  rw [or_and_left, ← storeUInt64_eq_iff, ← storeUInt64_eq_iff]
  constructor
  · intro h
    unfold transactionPrefix at h
    -- The members have fixed offsets.
    rcases List.append_inj' h (by simp only [storeUInt64_length]) with ⟨h1, hamount⟩
    rcases List.append_inj' h1 rfl with ⟨h2, _⟩
    rcases List.append_inj' h2 rfl with ⟨hcreated, _⟩
    exact ⟨hcreated, hamount⟩
  · rintro ⟨hcreated, hamount⟩
    rw [transactionPrefix, transactionPrefix, hcreated, hamount]

/-- The memory of a transaction is the same exactly if all its integers are
    stored alike. -/
theorem transactionMemory_eq_iff (t : Transaction) :
    transactionMemory receiver t = transactionMemory sender t ↔
      receiver.byteOrder = sender.byteOrder ∨ t.OrderFree := by
  have hprefix := transactionPrefix_eq_iff sender receiver t
  have hlength := storeUInt64_eq_iff receiver.byteOrder sender.byteOrder t.senderSignature.length
  constructor
  · intro h
    unfold transactionMemory at h
    rcases List.append_inj' h rfl with ⟨h1, _⟩
    rcases List.append_inj' h1 (by simp only [storeUInt64_length]) with ⟨hcovered, hstored⟩
    rcases hprefix.mp hcovered with horder | ⟨hcreated, hamount⟩
    · exact Or.inl horder
    · rcases hlength.mp hstored with horder | hlen
      · exact Or.inl horder
      · exact Or.inr ⟨hcreated, hamount, hlen⟩
  · rintro (horder | ⟨hcreated, hamount, hlen⟩)
    · exact transactionMemory_of_order sender receiver t horder.symm
    · rw [transactionMemory, transactionMemory, hprefix.mpr (Or.inr ⟨hcreated, hamount⟩),
        hlength.mpr (Or.inr hlen)]

/-- The bytes fed to the digest are the same exactly if all the integers of the
    block are stored alike. -/
theorem blockPreimage_eq_iff (b : Block) :
    blockPreimage receiver b = blockPreimage sender b ↔
      receiver.byteOrder = sender.byteOrder ∨ b.OrderFree := by
  have hcreated := storeUInt64_eq_iff receiver.byteOrder sender.byteOrder b.createdAt.toUInt64
  have hproof := storeUInt64_eq_iff receiver.byteOrder sender.byteOrder b.proofOfWork
  constructor
  · intro h
    by_cases horder : receiver.byteOrder = sender.byteOrder
    · exact Or.inl horder
    unfold blockPreimage at h
    rcases List.append_inj h (by simp only [List.length_append, storeUInt64_length]) with
      ⟨h1, htransactions⟩
    rcases List.append_inj' h1 rfl with ⟨h2, _⟩
    rcases List.append_inj' h2 (by simp only [storeUInt64_length]) with ⟨hc, hp⟩
    refine Or.inr ⟨(hcreated.mp hc).resolve_left horder, (hproof.mp hp).resolve_left horder, ?_⟩
    -- The transactions are equally long on both hosts, so they agree one by one.
    have hlists := flatten_map_eq (transactionMemory receiver) (transactionMemory sender)
      (fun t => by rw [transactionMemory_length, transactionMemory_length]) b.transactionList
      htransactions
    intro t ht
    exact ((transactionMemory_eq_iff sender receiver t).mp (hlists t ht)).resolve_left horder
  · rintro (horder | ⟨hc, hp, htransactions⟩)
    · have hmemory : transactionMemory receiver = transactionMemory sender :=
        funext fun t => transactionMemory_of_order sender receiver t horder.symm
      rw [blockPreimage, blockPreimage, hmemory, horder]
    · have hmemory : b.transactionList.map (transactionMemory receiver) =
          b.transactionList.map (transactionMemory sender) :=
        List.map_congr_left fun t ht =>
          (transactionMemory_eq_iff sender receiver t).mpr (Or.inr (htransactions t ht))
      rw [blockPreimage, blockPreimage, hcreated.mpr (Or.inr hc), hproof.mpr (Or.inr hp), hmemory]

/-- A signature that fits its array and covers the same bytes has the same
    check on a host with the same library. -/
theorem transactionVerifySignature_of_same_bytes (hssl : receiver.ssl = sender.ssl)
    (t : Transaction) (hfit : t.senderSignature.length.toNat ≤ MAX_SSH_SIGNATURE_LENGTH)
    (h : transactionPrefix receiver t = transactionPrefix sender t) :
    transactionVerifySignature receiver t = transactionVerifySignature sender t := by
  have hargument : signatureArgument receiver t = signatureArgument sender t := by
    rw [signatureArgument_eq receiver t hfit, signatureArgument_eq sender t hfit]
  rcases sender with ⟨ssl, order, afterSignature, afterCurrent, afterEmpty, afterArgument⟩
  rcases receiver with ⟨ssl', order', afterSignature', afterCurrent', afterEmpty', afterArgument'⟩
  simp only at hssl
  subst hssl
  unfold transactionVerifySignature
  rw [h, hargument]
  simp only
  -- The library is the same, so every call returns the same.
  rcases ssl'.pemReadBioPubkey t.senderPublicKey with _ | publicKey
  · rfl
  · rfl

/-- A block that is fed to the digest alike, and the one before it, pass the
    same checks on a host with the same library. -/
theorem succeeds_of_same_bytes (hssl : receiver.ssl = sender.ssl) (d : UInt64)
    (hd : d.toNat ≤ SHA256_DIGEST_LENGTH) (previous b : Block)
    (hfit : ∀ t ∈ b.transactionList, t.senderSignature.length.toNat ≤ MAX_SSH_SIGNATURE_LENGTH)
    (hprevious : blockPreimage receiver previous = blockPreimage sender previous)
    (hb : blockPreimage receiver b = blockPreimage sender b)
    (hsigned : ∀ t ∈ b.transactionList, transactionPrefix receiver t = transactionPrefix sender t)
    (h : Succeeds sender d previous b) : Succeeds receiver d previous b where
  work := by
    have hwork := (leadingZeroes_iff sender d _ hd).mp h.work
    rw [leadingZeroes_iff receiver d _ hd, blockHash, hssl, hb]
    exact hwork
  linked := by
    rw [blockHash, hssl, hprevious]
    exact h.linked
  minted := h.minted
  signed := by
    intro t ht
    rw [transactionVerifySignature_of_same_bytes sender receiver hssl t (hfit t ht) (hsigned t ht)]
    exact h.signed t ht

/-- A chain of which both hosts see the same bytes is valid on the second one
    if it is on the first. -/
theorem reportsValid_of_same_bytes (hssl : receiver.ssl = sender.ssl) (c : Blockchain)
    (hfit : SignaturesFit c)
    (hd : c.numLeadingZeroBytesRequiredInBlockHash.toNat ≤ SHA256_DIGEST_LENGTH)
    (hpreimages : ∀ b ∈ c.blockList, blockPreimage receiver b = blockPreimage sender b)
    (hsigned : ∀ b ∈ c.blockList, ∀ t ∈ b.transactionList,
      transactionPrefix receiver t = transactionPrefix sender t)
    (h : ReportsValid sender c) : ReportsValid receiver c := by
  rw [reportsValid_iff] at h ⊢
  rcases h with hnil | ⟨genesis, rest, hblocks, hgenesis, hchain⟩
  · exact Or.inl hnil
  · refine Or.inr ⟨genesis, rest, hblocks, hgenesis, ?_⟩
    rw [← hblocks] at hchain ⊢
    refine hchain.imp_of_mem_imp ?_
    intro previous b hp hb hsucceeds
    exact succeeds_of_same_bytes sender receiver hssl _ hd previous b (hfit b hb)
      (hpreimages previous hp) (hpreimages b hb) (hsigned b hb) hsucceeds

/-- A chain that has been transferred means the same to both hosts exactly if
    they have one byte order, or every integer of its blocks and transactions
    reads the same from both ends. -/
theorem hostIndependent_iff (c c' : Blockchain) (h : Transferred sender receiver c c') :
    HostIndependent sender receiver c c' ↔
      receiver.byteOrder = sender.byteOrder ∨ ∀ b ∈ c.blockList, b.OrderFree := by
  have hsame := transferred_eq sender receiver c c' h
  subst hsame
  constructor
  · intro hindependent
    by_cases horder : receiver.byteOrder = sender.byteOrder
    · exact Or.inl horder
    · refine Or.inr ?_
      intro b hb
      have hblock := List.map_inj_left.mp hindependent.preimages b hb
      exact ((blockPreimage_eq_iff sender receiver b).mp hblock).resolve_left horder
  · intro hcond
    have hpreimages : ∀ b ∈ c'.blockList, blockPreimage receiver b = blockPreimage sender b :=
      fun b hb => (blockPreimage_eq_iff sender receiver b).mpr
        (hcond.imp_right fun hall => hall b hb)
    have hsigned : ∀ b ∈ c'.blockList, ∀ t ∈ b.transactionList,
        transactionPrefix receiver t = transactionPrefix sender t := by
      intro b hb t ht
      refine (transactionPrefix_eq_iff sender receiver t).mpr (hcond.imp_right fun hall => ?_)
      have hfree := (hall b hb).transactionList t ht
      exact ⟨hfree.createdAt, hfree.amount⟩
    refine ⟨List.map_congr_left hpreimages, List.map_congr_left ?_, ?_⟩
    · intro t ht
      rcases List.mem_flatMap.mp ht with ⟨b, hb, hmem⟩
      exact hsigned b hb t hmem
    · intro hssl hfit hd hvalid
      exact reportsValid_of_same_bytes sender receiver hssl c' hfit hd hpreimages hsigned hvalid

end Hosts

/-- The host of the other byte order, with the same library. -/
def sampleBigHost : Host := { sampleHost with byteOrder := .big }

/-- The chain of a genesis block gets from the little-endian host to the
    big-endian one. -/
theorem transferred_sample :
    Transferred sampleHost sampleBigHost ⟨[sampleGenesis], 0⟩ ⟨[sampleGenesis], 0⟩ := by
  rcases blockchainSerialize_ok .little .generous 0 ⟨[sampleGenesis], 0⟩
    (Allocator.generous_grants _ (by decide)) with ⟨buffer, hser, hbytes⟩
  refine ⟨.generous, 0, buffer, .generous, 0, fun _ => 0, hser, ?_⟩
  rw [hbytes]
  refine blockchainDeserialize_ok .big .little .generous 0 _ _ rfl (by decide)
    (holds_ofBytes _ _) ?_ (Allocator.generous_grants _ (by decide))
  intro x hx t ht
  rw [List.mem_singleton.mp hx] at ht
  exact absurd ht List.not_mem_nil

/-- Its block is not fed to the digest alike on the two hosts. -/
theorem hostIndependent_iff_sample :
    HostIndependent sampleHost sampleBigHost ⟨[sampleGenesis], 0⟩ ⟨[sampleGenesis], 0⟩ ↔
      ByteOrder.big = ByteOrder.little ∨ ∀ b ∈ [sampleGenesis], b.OrderFree :=
  hostIndependent_iff sampleHost sampleBigHost _ _ transferred_sample

/-- So what a host feeds to the digest depends on its byte order. -/
theorem sampleGenesis_not_hostIndependent :
    ¬ ∀ (sender receiver : Host) (c c' : Blockchain), Transferred sender receiver c c' →
      HostIndependent sender receiver c c' := by
  intro h
  have hpreimages := (h _ _ _ _ transferred_sample).preimages
  rw [List.map_singleton, List.map_singleton, List.cons.injEq] at hpreimages
  have hcond := (blockPreimage_eq_iff sampleHost sampleBigHost sampleGenesis).mp hpreimages.1
  rcases hcond with horder | hfree
  · exact absurd horder (by decide)
  · exact absurd hfree.proofOfWork (by decide)

end LeoCoin
