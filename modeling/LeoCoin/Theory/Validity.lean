import LeoCoin.Core.Verify
import Mathlib.Data.List.Chain

/-!
# Validity

What it takes for a chain to be reported valid.

The verifier reads a chain once, front to back, and can leave the loop at any
of its checks. `Succeeds` is what a block must satisfy to get through all of
them, relative to the block before it, so a chain gets through exactly when
consecutive blocks are related: `verifyBlocks_valid_iff` is the loop
invariant, and `reportsValid_iff` adds the genesis block.

Those two hold for every difficulty. The check of the leading zeros reads past
the digest when the chain requires more of them than a digest has bytes, so it
is stated there as the comparison the code makes. Below that bound it is a
statement about the digest alone, and the rule becomes the documented one.

`IsValid` is that documented rule, in its own words: positions in the chain
and the four conditions each later block has to meet.

## Main definitions

* `IsGenesis`: The conditions on the first block.
* `Succeeds`: The checks a later block passes, as the code makes them.
* `ReportsValid`: The verifier succeeds with a true verdict.
* `IsSuccessor`: The documented conditions on a later block.
* `IsValid`: The documented rule.

## Theorems

* `verifyTransactions_true_iff`: Every signature check succeeds.
* `verifyBlock_none_iff`: The blocks a round lets through.
* `verifyBlocks_valid_iff`: The invariant of the loop over blocks.
* `reportsValid_iff`: The chains reported valid, at any difficulty.
* `reportsValid_concat`: Appending a block that succeeds keeps a chain valid.
* `blockCreateGenesisBlock_isGenesis`: What the program starts a chain with.
* `leadingZeroes_iff`: The comparison as a statement about the digest.
* `succeeds_iff_isSuccessor`: The checks as the documented conditions.
* `reportsValid_iff_isValid`: The verifier decides the documented rule.
-/

namespace LeoCoin

/-- The conditions on the genesis block. -/
structure IsGenesis (b : Block) : Prop where
  transactionList : b.transactionList = []
  proofOfWork : b.proofOfWork = GENESIS_BLOCK_PROOF_OF_WORK
  previousBlockHash : b.previousBlockHash = Bytes.zero SHA256_DIGEST_LENGTH

/-- The comparison of a digest with zero, as the verifier makes it. -/
def PassesWorkCheck (host : Host) (d : UInt64) (hash : Sha256) : Prop :=
  memcmp (extend hash.toList host.afterCurrentHash)
    (extend (Bytes.zero SHA256_DIGEST_LENGTH).toList host.afterEmptyHash) d.toNat = 0

/-- A block has a minting transaction in front. -/
def IsMinted (b : Block) : Prop :=
  ∃ mint rest, b.transactionList = mint :: rest ∧
    mint.amount = AMOUNT_GENERATED_DURING_MINTING ∧
    mint.senderPublicKey = mint.recipientPublicKey

/-- Every transaction of a block has its signature check succeed as valid. -/
def IsSigned (host : Host) (b : Block) : Prop :=
  ∀ t ∈ b.transactionList, transactionVerifySignature host t = .ok true

/-- The checks a block after the genesis block passes. -/
structure Succeeds (host : Host) (d : UInt64) (previous b : Block) : Prop where
  work : PassesWorkCheck host d (blockHash host b)
  linked : b.previousBlockHash = blockHash host previous
  minted : IsMinted b
  signed : IsSigned host b

/-- The verifier returns success with a true verdict. -/
def ReportsValid (host : Host) (c : Blockchain) : Prop :=
  ∃ v, blockchainVerify host c = .ok v ∧ v.isValidBlockchain = true

theorem verifyTransactions_true_iff (host : Host) (ts : List Transaction) :
    verifyTransactions host ts = .ok true ↔
      ∀ t ∈ ts, transactionVerifySignature host t = .ok true := by
  induction ts with
  | nil => simp only [verifyTransactions, List.not_mem_nil, false_implies, implies_true]
  | cons t ts ih =>
      rw [List.forall_mem_cons, ← ih, verifyTransactions]
      -- An error and a false verdict both end the loop at this transaction.
      rcases hv : transactionVerifySignature host t with code | _ | _
      · simp only [reduceCtorEq, false_and]
      · simp only [Bool.false_eq_true, not_false_eq_true, if_true, Except.ok.injEq, false_and]
      · simp only [not_true_eq_false, if_false, true_and]

/-- A round lets a block through exactly when the block passes every check. -/
theorem verifyBlock_none_iff (host : Host) (d : UInt64) (idx : Nat) (previous b : Block) :
    verifyBlock host d idx (blockHash host previous) b = .ok none ↔ Succeeds host d previous b := by
  have hexit : ∀ (v : Verdict), ¬ (Except.ok (some v) : Except ReturnCode (Option Verdict)) =
      .ok none := fun v h => by
    rw [Except.ok.injEq] at h
    exact absurd h (Option.some_ne_none v)
  rw [verifyBlock]
  constructor
  · intro h
    split at h
    · exact absurd h (hexit _)
    -- The work check passed.
    rename_i hwork
    split at h
    · exact absurd h (hexit _)
    -- The stored digest agrees with the one carried by the loop.
    rename_i hlinked
    rw [not_not, memcmp_extend_eq_zero_iff] at hlinked
    split at h
    · exact absurd h (hexit _)
    -- There is a first transaction.
    rename_i mint rest htx
    split at h
    · exact absurd h (hexit _)
    -- It mints one coin from its sender to itself.
    rename_i hmint
    rw [not_or, not_not, not_not, memcmp_extend_eq_zero_iff] at hmint
    split at h
    · exact absurd h (by simp only [reduceCtorEq, not_false_eq_true])
    · exact absurd h (hexit _)
    -- Every signature is valid.
    rename_i hsigned
    exact ⟨not_not.mp hwork, hlinked, ⟨mint, rest, htx, hmint.1.symm, hmint.2⟩,
      (verifyTransactions_true_iff host _).mp hsigned⟩
  · rintro ⟨hwork, hlinked, ⟨mint, rest, htx, hamount, hkeys⟩, hsigned⟩
    have hmint : ¬ (AMOUNT_GENERATED_DURING_MINTING ≠ mint.amount ∨
        memcmp (extend mint.senderPublicKey.toList fun _ => 0)
          (extend mint.recipientPublicKey.toList fun _ => 0) MAX_SSH_KEY_LENGTH ≠ 0) := by
      rw [not_or, not_not, not_not, memcmp_extend_eq_zero_iff]
      exact ⟨hamount.symm, hkeys⟩
    unfold PassesWorkCheck at hwork
    rw [if_neg (not_not.mpr hwork),
      if_neg (not_not.mpr ((memcmp_extend_eq_zero_iff _ _ _ _).mpr hlinked)), htx]
    simp only
    rw [if_neg hmint, ← htx, (verifyTransactions_true_iff host _).mpr hsigned]

/-- A round that ends the loop with a verdict ends it with a false one. -/
theorem verifyBlock_some_false (host : Host) (d : UInt64) (idx : Nat) (previousHash : Sha256)
    (b : Block) (v : Verdict) (h : verifyBlock host d idx previousHash b = .ok (some v)) :
    v.isValidBlockchain = false := by
  have hexit : ∀ p, (Except.ok (some ⟨false, p⟩) : Except ReturnCode (Option Verdict)) =
      .ok (some v) → v.isValidBlockchain = false := fun p h => by
    rw [Except.ok.injEq, Option.some.injEq] at h
    rw [← h]
  rw [verifyBlock] at h
  split at h
  · exact hexit _ h
  split at h
  · exact hexit _ h
  split at h
  · exact hexit _ h
  split at h
  · exact hexit _ h
  split at h
  · exact absurd h (by simp only [reduceCtorEq, not_false_eq_true])
  · exact hexit _ h
  · exact absurd h (by simp only [Except.ok.injEq, reduceCtorEq, not_false_eq_true])

/-- The loop ends in a true verdict exactly when every block passes the checks
    relative to the block before it. The digest carried by the loop is always
    that of the block before, which is the invariant. -/
theorem verifyBlocks_valid_iff (host : Host) (d : UInt64) (bs : List Block) :
    ∀ (idx : Nat) (previous : Block),
      (∃ v, verifyBlocks host d idx (blockHash host previous) bs = .ok v ∧
        v.isValidBlockchain = true) ↔ List.IsChain (Succeeds host d) (previous :: bs) := by
  induction bs with
  | nil =>
      intro idx previous
      exact ⟨fun _ => List.IsChain.singleton previous, fun _ => ⟨_, rfl, rfl⟩⟩
  | cons b bs ih =>
      intro idx previous
      rw [List.isChain_cons_cons, ← ih (idx + 1) b, ← verifyBlock_none_iff host d idx previous b,
        verifyBlocks]
      rcases hround : verifyBlock host d idx (blockHash host previous) b with code | _ | v
      · simp only [reduceCtorEq, false_and, exists_false]
      · simp only [true_and]
      -- The loop ends here, and no block that ends it passes.
      · have hv := verifyBlock_some_false host d idx _ b v hround
        simp only [Except.ok.injEq, exists_eq_left', hv, Bool.false_eq_true, reduceCtorEq,
          false_and]

/-- The check of the first block, as the code makes it. -/
theorem genesisCheck_iff (host : Host) (genesis : Block) :
    ¬ (¬ linkedListIsEmpty genesis.transactionList = true ∨
      genesis.proofOfWork ≠ GENESIS_BLOCK_PROOF_OF_WORK ∨
      memcmp (extend genesis.previousBlockHash.toList fun _ => 0)
        (extend (Bytes.zero SHA256_DIGEST_LENGTH).toList host.afterEmptyHash)
        SHA256_DIGEST_LENGTH ≠ 0) ↔ IsGenesis genesis := by
  rw [not_or, not_or, not_not, not_not, not_not, memcmp_extend_eq_zero_iff]
  constructor
  · rintro ⟨hempty, hproof, hprevious⟩
    exact ⟨List.isEmpty_iff.mp hempty, hproof, hprevious⟩
  · intro hg
    exact ⟨List.isEmpty_iff.mpr hg.transactionList, hg.proofOfWork, hg.previousBlockHash⟩

/-- The chains reported valid, whatever number of leading zeros they require. -/
theorem reportsValid_iff (host : Host) (c : Blockchain) :
    ReportsValid host c ↔ c.blockList = [] ∨
      ∃ genesis rest, c.blockList = genesis :: rest ∧ IsGenesis genesis ∧
        List.IsChain (Succeeds host c.numLeadingZeroBytesRequiredInBlockHash)
          (genesis :: rest) := by
  rw [ReportsValid, blockchainVerify]
  rcases hbs : c.blockList with _ | ⟨genesis, rest⟩
  · exact ⟨fun _ => Or.inl rfl, fun _ => ⟨_, rfl, rfl⟩⟩
  · simp only [reduceCtorEq, false_or, List.cons.injEq]
    by_cases hg : IsGenesis genesis
    · rw [if_neg ((genesisCheck_iff host genesis).mpr hg), verifyBlocks_valid_iff]
      constructor
      · exact fun h => ⟨genesis, rest, ⟨rfl, rfl⟩, hg, h⟩
      · rintro ⟨g, r, ⟨rfl, rfl⟩, _, h⟩
        exact h
    · have hfail := not_not.mp ((genesisCheck_iff host genesis).not.mpr hg)
      rw [if_pos hfail]
      constructor
      · rintro ⟨v, hv, ht⟩
        rw [Except.ok.injEq] at hv
        rw [← hv] at ht
        exact absurd ht Bool.false_ne_true
      · rintro ⟨g, r, ⟨rfl, rfl⟩, hgen, _⟩
        exact absurd hgen hg

/-- Appending a block that succeeds the last one keeps a chain valid. -/
theorem reportsValid_concat (host : Host) (c : Blockchain) (previous b : Block)
    (hvalid : ReportsValid host c) (hlast : c.blockList.getLast? = some previous)
    (hb : Succeeds host c.numLeadingZeroBytesRequiredInBlockHash previous b) :
    ReportsValid host { c with blockList := c.blockList ++ [b] } := by
  rw [reportsValid_iff] at hvalid ⊢
  rcases hvalid with hnil | ⟨genesis, rest, hbs, hgen, hchain⟩
  · rw [hnil] at hlast
    exact absurd hlast (by simp only [List.getLast?_nil, reduceCtorEq, not_false_eq_true])
  · refine Or.inr ⟨genesis, rest ++ [b], by simp only [hbs, List.cons_append], hgen, ?_⟩
    rw [← List.cons_append]
    -- Only the last block and the new one meet where the lists are joined.
    refine List.IsChain.append hchain (List.IsChain.singleton b) ?_
    intro x hx y hy
    rw [← hbs, hlast, Option.mem_some_iff] at hx
    rw [List.head?_cons, Option.mem_some_iff] at hy
    rw [← hx, ← hy]
    exact hb

/-- The genesis block the program creates meets the conditions on one. -/
theorem blockCreateGenesisBlock_isGenesis (alloc : Allocator) (call : Nat) (now : Int64)
    (genesis : Block) (h : blockCreateGenesisBlock alloc call now = .ok genesis) :
    IsGenesis genesis := by
  unfold blockCreateGenesisBlock at h
  rcases linkedListCreate_obtains alloc call (α := Transaction) with hlist | ⟨hlist, _⟩
  swap
  · simp only [hlist, reduceCtorEq] at h
  simp only [hlist] at h
  rcases blockCreate_obtains alloc (call + 1) now [] GENESIS_BLOCK_PROOF_OF_WORK
    (Bytes.zero SHA256_DIGEST_LENGTH) with hblock | ⟨hblock, _⟩
  · rw [hblock, Except.ok.injEq] at h
    rw [← h]
    exact ⟨rfl, rfl, rfl⟩
  · rw [hblock] at h
    exact absurd h (by simp only [reduceCtorEq, not_false_eq_true])

/-- A chain reported valid whose first block has no successor. -/
theorem reportsValid_genesis (host : Host) (d : UInt64) (genesis : Block)
    (hg : IsGenesis genesis) : ReportsValid host ⟨[genesis], d⟩ :=
  (reportsValid_iff host _).mpr
    (Or.inr ⟨genesis, [], rfl, hg, List.IsChain.singleton genesis⟩)

/-- Inside the digest, comparing with zero looks at the leading bytes only. -/
theorem leadingZeroes_iff (host : Host) (d : UInt64) (hash : Sha256)
    (hd : d.toNat ≤ SHA256_DIGEST_LENGTH) :
    PassesWorkCheck host d hash ↔ ∀ i, i < d.toNat → hash.toList[i]? = some 0 := by
  rw [PassesWorkCheck, memcmp_eq_zero_iff]
  -- Below the bound neither array is left, so what lies behind them is not read.
  refine forall_congr' ?_
  intro i
  refine imp_congr_right ?_
  intro hi
  have h32 : i < 32 := Nat.lt_of_lt_of_le hi hd
  have hlt : i < hash.toList.length := by rwa [Sha256.toList_length]
  have hzero : extend (Bytes.zero SHA256_DIGEST_LENGTH).toList host.afterEmptyHash i = 0 := by
    rw [extend_of_lt _ _ _ (by rwa [Sha256.toList_length])]
    exact List.getElem_replicate _
  rw [extend_of_lt _ _ _ hlt, hzero, List.getElem?_eq_getElem hlt, Option.some.injEq]

/-- The loop of the miners and the comparison of the verifier accept the same
    digests, as long as neither leaves the digest. -/
theorem isValidBlockHash_iff (host : Host) (c : Blockchain) (hash : Sha256)
    (hd : c.numLeadingZeroBytesRequiredInBlockHash.toNat ≤ SHA256_DIGEST_LENGTH) :
    blockchainIsValidBlockHash host c hash = true ↔
      PassesWorkCheck host c.numLeadingZeroBytesRequiredInBlockHash hash := by
  rw [leadingZeroes_iff host _ hash hd, blockchainIsValidBlockHash, List.all_eq_true]
  refine forall_congr' ?_
  intro i
  rw [List.mem_range]
  refine imp_congr_right ?_
  intro hi
  have h32 : i < 32 := Nat.lt_of_lt_of_le hi hd
  have hlt : i < hash.toList.length := by rwa [Sha256.toList_length]
  rw [beq_iff_eq, extend_of_lt _ _ _ hlt, List.getElem?_eq_getElem hlt, Option.some.injEq]

/-- On the sample host a sample block succeeds any block. Its digest begins
    with thirty-one zeros, so it does at any difficulty up to that. -/
theorem sampleSuccessor_succeeds (d : UInt64) (hd : d.toNat ≤ 31) (previous : Block) :
    Succeeds sampleHost d previous (sampleSuccessor previous) where
  work := by
    refine (leadingZeroes_iff _ _ _ (Nat.le_trans hd (by decide))).mpr ?_
    intro i hi
    have hlt : i < (List.replicate 31 (0 : UInt8)).length := by
      rw [List.length_replicate]
      omega
    change (List.replicate 31 (0 : UInt8) ++ [_])[i]? = some 0
    rw [List.getElem?_append_left hlt, List.getElem?_eq_getElem hlt, List.getElem_replicate]
  linked := rfl
  minted := ⟨sampleMint, [], rfl, rfl, rfl⟩
  signed := fun t _ => rfl

theorem sampleGenesis_isGenesis : IsGenesis sampleGenesis := ⟨rfl, rfl, rfl⟩

/-- The sample chain of a genesis block and one block after it is valid. -/
theorem sampleChain_reportsValid (d : UInt64) (hd : d.toNat ≤ 31) :
    ReportsValid sampleHost ⟨[sampleGenesis, sampleSuccessor sampleGenesis], d⟩ :=
  reportsValid_concat sampleHost ⟨[sampleGenesis], d⟩ sampleGenesis _
    (reportsValid_genesis _ d _ sampleGenesis_isGenesis) rfl
    (sampleSuccessor_succeeds d hd sampleGenesis)

/-- The documented conditions on a block after the genesis block: proof of
    work, previous digest, minting transaction and signatures. -/
structure IsSuccessor (host : Host) (d : UInt64) (previous b : Block) : Prop where
  proofOfWork : ∀ i, i < d.toNat → (blockHash host b).toList[i]? = some 0
  previousBlockHash : b.previousBlockHash = blockHash host previous
  minted : IsMinted b
  signed : IsSigned host b

/-- The documented rule: an empty chain, or a genesis block followed by blocks
    that each meet the conditions relative to the block before. -/
def IsValid (host : Host) (c : Blockchain) : Prop :=
  c.blockList = [] ∨
    (∃ genesis, c.blockList[0]? = some genesis ∧ IsGenesis genesis) ∧
      ∀ i previous b, c.blockList[i]? = some previous → c.blockList[i + 1]? = some b →
        IsSuccessor host c.numLeadingZeroBytesRequiredInBlockHash previous b

/-- Up to the size of a digest, the checks are the documented conditions. -/
theorem succeeds_iff_isSuccessor (host : Host) (d : UInt64)
    (hd : d.toNat ≤ SHA256_DIGEST_LENGTH) (previous b : Block) :
    Succeeds host d previous b ↔ IsSuccessor host d previous b := by
  -- They differ in how the work check is stated only.
  have hwork := leadingZeroes_iff host d (blockHash host b) hd
  exact ⟨fun h => ⟨hwork.mp h.work, h.linked, h.minted, h.signed⟩,
    fun h => ⟨hwork.mpr h.proofOfWork, h.previousBlockHash, h.minted, h.signed⟩⟩

/-- Up to the size of a digest, the verifier decides the documented rule. -/
theorem reportsValid_iff_isValid (host : Host) (c : Blockchain)
    (hd : c.numLeadingZeroBytesRequiredInBlockHash.toNat ≤ SHA256_DIGEST_LENGTH) :
    ReportsValid host c ↔ IsValid host c := by
  rw [reportsValid_iff, IsValid]
  refine or_congr_right ?_
  have hiff := succeeds_iff_isSuccessor host c.numLeadingZeroBytesRequiredInBlockHash hd
  constructor
  · rintro ⟨genesis, rest, hbs, hgen, hchain⟩
    -- From the list relation to positions, and back below.
    rw [List.isChain_iff_getElem] at hchain
    refine ⟨⟨genesis, by rw [hbs]; rfl, hgen⟩, ?_⟩
    intro i previous b hi hj
    rw [hbs] at hi hj
    rcases List.getElem?_eq_some_iff.mp hi with ⟨hilt, hieq⟩
    rcases List.getElem?_eq_some_iff.mp hj with ⟨hjlt, hjeq⟩
    rw [← hieq, ← hjeq]
    exact (hiff _ _).mp (hchain i hjlt)
  · rintro ⟨⟨genesis, hhead, hgen⟩, hsucc⟩
    rcases hbs : c.blockList with _ | ⟨g, rest⟩
    · rw [hbs] at hhead
      exact absurd hhead (by simp only [List.getElem?_nil, reduceCtorEq, not_false_eq_true])
    · rw [hbs, List.getElem?_cons_zero, Option.some.injEq] at hhead
      refine ⟨g, rest, rfl, hhead ▸ hgen, ?_⟩
      rw [List.isChain_iff_getElem]
      intro i hi
      refine (hiff _ _).mpr (hsucc i _ _ ?_ ?_)
      · rw [hbs, List.getElem?_eq_getElem (by omega)]
      · rw [hbs, List.getElem?_eq_getElem hi]

/-- The rule decided on a concrete chain of two blocks requiring three zeros. -/
theorem reportsValid_iff_isValid_sample :
    ReportsValid sampleHost ⟨[sampleGenesis, sampleSuccessor sampleGenesis], 3⟩ ↔
      IsValid sampleHost ⟨[sampleGenesis, sampleSuccessor sampleGenesis], 3⟩ :=
  reportsValid_iff_isValid sampleHost _ (by decide)

end LeoCoin
