import LeoCoin.Core.MiningThread
import LeoCoin.Theory.RoundTrip
import LeoCoin.Theory.Validity

/-!
# Mining

A mined block meets the rules the verifier enforces.

The miner and the verifier check the proof of work by different code, and the
minting transaction is built in one place and checked in another. What the
miner needs of the signature library is `SignsFor`: the public key reads, and
what the private key signs verifies under it and fits the array. Under that
assumption a successful iteration appends a block that succeeds the last one,
and every other iteration leaves the chain as it was.

## Main definitions

* `SignsFor`: A key pair whose signatures verify and fit.

## Theorems

* `mineLoop_ok`: A successful search returns the block with a nonce that
  passes.
* `blockchainMineBlock_ok`, `synchronizedBlockchainMineBlock_ok`: So do the two
  miners.
* `transactionCreate_signed`, `transactionCreate_ok`: What a created transaction
  is, and that it verifies.
* `prepareNextBlock_ok`: What is built before the search.
* `mineBlocksIteration_spec`: The outcome of an iteration.
-/

namespace LeoCoin

/-- The public key reads and verifies every signature made with the private
    key, and such signatures fit the array. -/
structure SignsFor (ssl : OpenSsl) (publicKey privateKey : SshKey) (key : ssl.PKey) : Prop where
  opens : ssl.bioNewMemBuf publicKey = true
  reads : ssl.pemReadBioPubkey publicKey = some key
  context : ssl.evpMdCtxNew key = true
  init : 0 < ssl.evpVerifyInit key
  update : ∀ msg, 0 < ssl.evpVerifyUpdate key msg
  verifies : ∀ private_ msg written, ssl.pemReadBioPrivateKey privateKey = some private_ →
    ssl.evpDigestSignFinal private_ msg = some written →
      written.length ≤ MAX_SSH_SIGNATURE_LENGTH ∧ ssl.evpVerifyFinal key msg written = 1

/-- A successful search ends with a nonce that passes the check, in a block
    that is otherwise the one it was given. -/
theorem mineLoop_ok (host : Host) (c : Blockchain) (printProgress : Bool)
    (interrupted : UInt64 → Display → Option (ReturnCode × Display)) (remaining : Nat)
    (newProof : UInt64) (block : Block) (d : Display)
    (h : (mineLoop host c printProgress interrupted remaining newProof block d).returnCode =
      .ok ()) :
    ∃ proof, (mineLoop host c printProgress interrupted remaining newProof block d).block =
        { block with proofOfWork := proof } ∧
      blockchainIsValidBlockHash host c
        (blockHash host { block with proofOfWork := proof }) = true := by
  induction remaining generalizing newProof block d with
  | zero => exact absurd h (by simp only [mineLoop, reduceCtorEq, not_false_eq_true])
  | succ n ih =>
      unfold mineLoop at h ⊢
      rcases hint : interrupted newProof d with _ | ⟨code, d'⟩
      · simp only [hint] at h ⊢
        by_cases hvalid : blockchainIsValidBlockHash host c
            (blockHash host { block with proofOfWork := newProof }) = true
        · rw [if_pos hvalid]
          exact ⟨newProof, rfl, hvalid⟩
        · -- The next nonce is tried on the block with this one in it.
          rw [if_neg hvalid] at h ⊢
          rcases ih _ _ _ h with ⟨proof, hblock, hproof⟩
          exact ⟨proof, hblock, hproof⟩
      · simp only [hint] at h
        exact absurd h (by simp only [reduceCtorEq, not_false_eq_true])

/-- A successful search on a chain of its own, whenever it is asked to stop. -/
theorem blockchainMineBlock_ok (host : Host) (c : Blockchain) (block : Block)
    (printProgress : Bool) (readings : Readings)
    (h : (blockchainMineBlock host c block printProgress readings).returnCode = .ok ()) :
    ∃ proof, (blockchainMineBlock host c block printProgress readings).block =
        { block with proofOfWork := proof } ∧
      blockchainIsValidBlockHash host c
        (blockHash host { block with proofOfWork := proof }) = true :=
  mineLoop_ok host c printProgress _ numNonces 0 block Display.start h

/-- The published chain is what is mined on, so a successful synchronized
    search is a successful search at the published difficulty. -/
theorem synchronizedBlockchainMineBlock_ok (host : Host) (sync : SynchronizedBlockchain)
    (lock unlock : Nat) (block : Block) (printProgress : Bool) (readings : Readings)
    (h : (synchronizedBlockchainMineBlock host sync lock unlock block printProgress
      readings).returnCode = .ok ()) :
    ∃ proof, (synchronizedBlockchainMineBlock host sync lock unlock block printProgress
        readings).block = { block with proofOfWork := proof } ∧
      blockchainIsValidBlockHash host sync.blockchain
        (blockHash host { block with proofOfWork := proof }) = true := by
  unfold synchronizedBlockchainMineBlock at h ⊢
  by_cases hlock : lock = 0
  · by_cases hunlock : unlock = 0
    · rw [if_neg (not_not_intro hlock), if_neg (not_not_intro hunlock)] at h ⊢
      exact mineLoop_ok host sync.blockchain printProgress _ numNonces 0 block Display.start h
    · rw [if_neg (not_not_intro hlock), if_pos hunlock] at h
      exact absurd h (by simp only [reduceCtorEq, not_false_eq_true])
  · rw [if_pos hlock] at h
    exact absurd h (by simp only [reduceCtorEq, not_false_eq_true])

/-- A signature that fits the array is stored as it was written. -/
theorem signatureArgument_writeSignature (host : Host) (t : Transaction) (written : List UInt8)
    (h : written.length ≤ MAX_SSH_SIGNATURE_LENGTH) :
    signatureArgument host { t with senderSignature :=
      { length := UInt64.ofNat written.length
        bytes := writeSignature t.senderSignature.bytes written } } = written := by
  unfold MAX_SSH_SIGNATURE_LENGTH at h
  have hlen : (UInt64.ofNat written.length).toNat = written.length := by
    rw [UInt64.toNat_ofNat', Nat.mod_eq_of_lt (by omega)]
  have hlen32 : (UInt64.ofNat written.length).toUInt32.toNat = written.length := by
    rw [UInt64.toNat_toUInt32, hlen, Nat.mod_eq_of_lt (by omega)]
  rw [signatureArgument_eq _ _ (by rw [hlen]; exact h), hlen32]
  -- Neither the array nor the stored length cuts the signature off.
  change ((written ++ _).take 512).take written.length = written
  rw [List.take_take, Nat.min_eq_left h, List.take_left]

/-- What a successful signer wrote, and how it is stored. -/
theorem transactionGenerateSignature_ok (host : Host) (t : Transaction) (privateKey : SshKey)
    (signature : SshSignature)
    (h : transactionGenerateSignature host t privateKey = .ok signature) :
    ∃ key written, host.ssl.pemReadBioPrivateKey privateKey = some key ∧
      host.ssl.evpDigestSignFinal key (transactionPrefix host t) = some written ∧
      signature = { length := UInt64.ofNat written.length
                    bytes := writeSignature t.senderSignature.bytes written } := by
  unfold transactionGenerateSignature at h
  by_cases hopen : host.ssl.bioNewMemBuf privateKey = true
  swap
  · rw [if_pos hopen] at h
    exact absurd h (by simp only [reduceCtorEq, not_false_eq_true])
  rw [if_neg (not_not_intro hopen)] at h
  rcases hread : host.ssl.pemReadBioPrivateKey privateKey with _ | key
  · simp only [hread, reduceCtorEq] at h
  simp only [hread] at h
  -- Only the run through every test of the signer ends without an error.
  by_cases hrsa : host.ssl.isRsa key = true
  swap
  · simp only [hrsa, Bool.false_eq_true, not_false_eq_true, if_true, reduceCtorEq] at h
  by_cases hctx : host.ssl.evpMdCtxNew key = true
  swap
  · simp only [hrsa, hctx, Bool.false_eq_true, not_true_eq_false, not_false_eq_true, if_false,
      if_true, reduceCtorEq] at h
  simp only [hrsa, hctx, not_true_eq_false, if_false] at h
  by_cases hinit : host.ssl.evpDigestSignInit key ≤ 0
  · rw [if_pos hinit] at h
    exact absurd h (by simp only [reduceCtorEq, not_false_eq_true])
  rw [if_neg hinit] at h
  by_cases hupdate : host.ssl.evpDigestSignUpdate key (transactionPrefix host t) ≤ 0
  · rw [if_pos hupdate] at h
    exact absurd h (by simp only [reduceCtorEq, not_false_eq_true])
  rw [if_neg hupdate] at h
  rcases hlen : host.ssl.evpDigestSignLength key (transactionPrefix host t) with _ | n
  · simp only [hlen, reduceCtorEq] at h
  rcases hfinal : host.ssl.evpDigestSignFinal key (transactionPrefix host t) with _ | written
  · simp only [hlen, hfinal, reduceCtorEq] at h
  · simp only [hlen, hfinal, Except.ok.injEq] at h
    exact ⟨key, written, rfl, hfinal, h.symm⟩

/-- Verifying succeeds on what the private key signed. -/
theorem transactionVerifySignature_ok (host : Host) (t : Transaction)
    (publicKey privateKey : SshKey) (key : host.ssl.PKey)
    (hkeys : SignsFor host.ssl publicKey privateKey key) (hsender : t.senderPublicKey = publicKey)
    (signature : SshSignature)
    (h : transactionGenerateSignature host t privateKey = .ok signature) :
    transactionVerifySignature host { t with senderSignature := signature } = .ok true := by
  subst hsender
  rcases transactionGenerateSignature_ok host t privateKey signature h with
    ⟨private_, written, hread, hfinal, rfl⟩
  rcases hkeys.verifies private_ _ written hread hfinal with ⟨hlen, hverify⟩
  have hinit := Int.not_le.mpr hkeys.init
  have hupdate := Int.not_le.mpr (hkeys.update (transactionPrefix host t))
  -- The signature is no part of what it covers.
  have hcovered : ∀ s, transactionPrefix host { t with senderSignature := s } =
      transactionPrefix host t := fun _ => rfl
  unfold transactionVerifySignature
  rw [signatureArgument_writeSignature host t written hlen]
  -- No exit of the verifier is taken.
  simp only [hcovered, hkeys.opens, hkeys.reads, hkeys.context, hinit, hupdate, hverify,
    not_true_eq_false, if_false, beq_self_eq_true]

/-- A created transaction has the given members, and the signature that was
    generated for them. -/
theorem transactionCreate_signed (host : Host) (alloc : Allocator) (call : Nat) (now : Int64)
    (publicKey recipient : SshKey) (amount : UInt64) (privateKey : SshKey) (t : Transaction)
    (h : transactionCreate host alloc call now publicKey recipient amount privateKey = .ok t) :
    ∃ (unsigned : Transaction) (signature : SshSignature),
      transactionGenerateSignature host unsigned privateKey = .ok signature ∧
      t = { unsigned with senderSignature := signature } ∧ unsigned.amount = amount ∧
      unsigned.senderPublicKey = publicKey ∧ unsigned.recipientPublicKey = recipient := by
  unfold transactionCreate at h
  by_cases hgrant : alloc.grants call sizeofTransaction = true
  swap
  · rw [if_pos hgrant] at h
    exact absurd h (by simp only [reduceCtorEq, not_false_eq_true])
  rw [if_neg (not_not_intro hgrant)] at h
  simp only [] at h
  rcases hsign : transactionGenerateSignature host
    { createdAt := now
      senderPublicKey := publicKey
      recipientPublicKey := recipient
      amount := amount
      senderSignature := { length := 0, bytes := Bytes.zero MAX_SSH_SIGNATURE_LENGTH } }
    privateKey with code | signature
  · simp only [hsign, reduceCtorEq] at h
  · simp only [hsign, Except.ok.injEq] at h
    exact ⟨_, signature, hsign, h.symm, rfl, rfl, rfl⟩

/-- The signature of a created transaction verifies. -/
theorem transactionCreate_ok (host : Host) (alloc : Allocator) (call : Nat) (now : Int64)
    (publicKey privateKey recipient : SshKey) (amount : UInt64) (key : host.ssl.PKey)
    (hkeys : SignsFor host.ssl publicKey privateKey key) (t : Transaction)
    (h : transactionCreate host alloc call now publicKey recipient amount privateKey = .ok t) :
    t.amount = amount ∧ t.senderPublicKey = publicKey ∧ t.recipientPublicKey = recipient ∧
      transactionVerifySignature host t = .ok true := by
  rcases transactionCreate_signed host alloc call now publicKey recipient amount privateKey t h with
    ⟨unsigned, signature, hsign, rfl, hamount, hsender, hrecipient⟩
  exact ⟨hamount, hsender, hrecipient,
    transactionVerifySignature_ok host unsigned publicKey privateKey key hkeys hsender signature
      hsign⟩

/-- The block that is going to be mined names the last one as its predecessor
    and has one transaction, which mints for the miner and verifies. -/
theorem prepareNextBlock_ok (host : Host) (args : MineBlocksArgs) (m : MiningConditions)
    (c : Blockchain) (key : host.ssl.PKey)
    (hkeys : SignsFor host.ssl args.minerPublicKey args.minerPrivateKey key) (block : Block)
    (h : prepareNextBlock host args m c = .ok block) :
    ∃ previous, c.blockList.getLast? = some previous ∧
      block.previousBlockHash = blockHash host previous ∧ IsMinted block ∧ IsSigned host block := by
  unfold prepareNextBlock linkedListGetLast at h
  rcases hlast : c.blockList.getLast? with _ | previous
  · simp only [hlast, reduceCtorEq] at h
  simp only [hlast] at h
  -- Every stage that fails ends the preparation, so each has succeeded.
  rcases linkedListCreate_obtains m.alloc 0 (α := Transaction) with hlist | ⟨hlist, _⟩
  swap
  · simp only [hlist, reduceCtorEq] at h
  rcases htx : transactionCreate host m.alloc 1 m.transactionTime args.minerPublicKey
    args.minerPublicKey AMOUNT_GENERATED_DURING_MINTING args.minerPrivateKey with code | mint
  · simp only [hlist, htx, reduceCtorEq] at h
  rcases linkedListPrepend_obtains m.alloc 2 [] mint with hprepend | ⟨hprepend, _⟩
  swap
  · simp only [hlist, htx, hprepend, reduceCtorEq] at h
  rcases blockCreate_obtains m.alloc 3 m.blockTime [mint] 0 (blockHash host previous) with
    hblock | ⟨hblock, _⟩
  swap
  · simp only [hlist, htx, hprepend, hblock, reduceCtorEq] at h
  simp only [hlist, htx, hprepend, hblock, Except.ok.injEq] at h
  rcases transactionCreate_ok host m.alloc 1 m.transactionTime args.minerPublicKey
    args.minerPrivateKey args.minerPublicKey AMOUNT_GENERATED_DURING_MINTING key hkeys mint htx with
    ⟨hamount, hsender, hrecipient, hverify⟩
  refine ⟨previous, rfl, by rw [← h], ⟨mint, [], by rw [← h], hamount, ?_⟩, ?_⟩
  · rw [hsender, hrecipient]
  · intro t ht
    rw [← h] at ht
    rw [List.mem_singleton.mp ht]
    exact hverify

/-- The outcome of an iteration on a valid chain. It always has one. If it
    succeeds, the published chain has one more block and is still valid;
    otherwise nothing is changed. -/
theorem mineBlocksIteration_spec (host : Host) (args : MineBlocksArgs) (m : MiningConditions)
    (sync : SynchronizedBlockchain) (key : host.ssl.PKey)
    (hkeys : SignsFor host.ssl args.minerPublicKey args.minerPrivateKey key)
    (hd : sync.blockchain.numLeadingZeroBytesRequiredInBlockHash.toNat ≤ SHA256_DIGEST_LENGTH)
    (hvalid : ReportsValid host sync.blockchain) :
    ∃ out, mineBlocksIteration host args m sync = some out ∧
      ((∃ code, out.returnCode = .error code ∧ out.sync = sync) ∨
        (∃ block, out.returnCode = .ok () ∧
          out.sync = { sync with blockchain :=
            { sync.blockchain with blockList := sync.blockchain.blockList ++ [block] } } ∧
          ReportsValid host out.sync.blockchain)) := by
  unfold mineBlocksIteration
  rcases hvalid with ⟨⟨_, first⟩, hverify, rfl⟩
  simp only [hverify]
  rcases hnext : prepareNextBlock host args m sync.blockchain with code | nextBlock
  · exact ⟨_, rfl, Or.inl ⟨code, rfl, rfl⟩⟩
  simp only []
  rcases hcode : (synchronizedBlockchainMineBlock host sync m.lock m.unlock nextBlock
    args.printProgress m.readings).returnCode with code | _
  · exact ⟨_, rfl, Or.inl ⟨code, rfl, rfl⟩⟩
  rcases synchronizedBlockchainMineBlock_ok host sync m.lock m.unlock nextBlock args.printProgress
    m.readings hcode with ⟨proof, hblock, hproof⟩
  simp only []
  rcases blockchainAddBlock_obtains m.alloc 4 sync.blockchain
    (synchronizedBlockchainMineBlock host sync m.lock m.unlock nextBlock args.printProgress
      m.readings).block with hadd | ⟨hadd, _⟩
  · rw [hadd]
    refine ⟨_, rfl, Or.inr ⟨_, rfl, rfl, ?_⟩⟩
    rcases prepareNextBlock_ok host args m sync.blockchain key hkeys nextBlock hnext with
      ⟨previous, hlast, hprevious, hminted, hsigned⟩
    -- The nonce is no part of what the other rules are about.
    refine reportsValid_concat host sync.blockchain previous _ ⟨_, hverify, rfl⟩ hlast ?_
    rw [hblock]
    exact ⟨(isValidBlockHash_iff host sync.blockchain _ hd).mp hproof, hprevious, hminted, hsigned⟩
  · rw [hadd]
    exact ⟨_, rfl, Or.inl ⟨_, rfl, rfl⟩⟩

end LeoCoin
