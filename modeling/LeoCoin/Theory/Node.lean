import LeoCoin.Theory.LongestChain
import LeoCoin.Theory.Mining

/-!
# Node

Runs of a node, one event after the other.

An event is a whole iteration of the mining loop on the published chain, or a
whole consensus request. `PublishedValid` is what holds between events: the
published chain is reported valid and has the difficulty the node was started
with. The two kinds of event keep it for different reasons, the miner because
the block it builds meets the verifier's rules and the server because it
verifies what it publishes. `nodeStep_spec` is that step, and the rest follows
by the rule for runs.

## Main definitions

* `Event`, `nodeStep`: An event, and the chain published after it.
* `PublishedValid`: The invariant.

## Theorems

* `nodeStep_spec`: What an event does to a valid published chain.
* `nodeRun_publishedValid`: The invariant holds after every run.
* `published_always_valid`: The published chain is always valid.
-/

namespace LeoCoin

/-- A whole iteration of the mining loop, or a whole request. -/
inductive Event where
  | mine (m : MiningConditions)
  | request (r : Request)

/-- The chain published after an event, if the event has an outcome. -/
def nodeStep (host : Host) (args : MineBlocksArgs) (printProgress : Bool)
    (sync : SynchronizedBlockchain) : Event → Option SynchronizedBlockchain
  | .mine m => (mineBlocksIteration host args m sync).map (·.sync)
  | .request r => consensusStep host printProgress sync r

/-- The published chain is valid and of the given difficulty. -/
structure PublishedValid (host : Host) (d : UInt64) (sync : SynchronizedBlockchain) : Prop where
  valid : ReportsValid host sync.blockchain
  difficulty : sync.blockchain.numLeadingZeroBytesRequiredInBlockHash = d

section Runs

variable (host : Host) (args : MineBlocksArgs) (printProgress : Bool) (d : UInt64)
  (key : host.ssl.PKey) (hkeys : SignsFor host.ssl args.minerPublicKey args.minerPrivateKey key)
  (hd : d.toNat ≤ SHA256_DIGEST_LENGTH)

include hkeys hd in
/-- A mining iteration on a valid chain keeps the invariant, and the chain is
    longer by one block after a success and the same otherwise. -/
theorem mineStep_spec (sync : SynchronizedBlockchain) (h : PublishedValid host d sync)
    (m : MiningConditions) :
    ∃ out, mineBlocksIteration host args m sync = some out ∧ PublishedValid host d out.sync ∧
      out.sync.blockchain.blockList.length = sync.blockchain.blockList.length +
        if out.returnCode = .ok () then 1 else 0 := by
  rcases mineBlocksIteration_spec host args m sync key hkeys (by rw [h.difficulty]; exact hd)
    h.valid with ⟨out, hout, ⟨code, hcode, hsync⟩ | ⟨block, hcode, hsync, hvalid⟩⟩
  · refine ⟨out, hout, hsync ▸ h, ?_⟩
    rw [hsync, hcode]
    rfl
  · refine ⟨out, hout, ⟨hvalid, ?_⟩, ?_⟩
    · rw [hsync]
      exact h.difficulty
    · rw [hsync, hcode, List.length_append]
      rfl

/-- A request keeps the invariant, and the chain is never shorter after it. -/
theorem requestStep_spec (sync sync' : SynchronizedBlockchain) (h : PublishedValid host d sync)
    (r : Request) (hstep : consensusStep host printProgress sync r = some sync') :
    PublishedValid host d sync' ∧
      sync.blockchain.blockList.length ≤ sync'.blockchain.blockList.length := by
  unfold consensusStep at hstep
  rcases Option.map_eq_some_iff.mp hstep with ⟨out, hout, rfl⟩
  -- Whatever the request meets, only a valid and longer chain replaces.
  rcases handleOneConsensusRequest_sync host printProgress sync r out hout with
    hsame | ⟨peer, hvalid, hlonger, hdifficulty, hnew⟩
  · rw [hsame]
    exact ⟨h, Nat.le_refl _⟩
  · rw [hnew]
    exact ⟨⟨hvalid, hdifficulty.symm.trans h.difficulty⟩, Nat.le_of_lt hlonger⟩

include hkeys hd in
/-- Every event keeps the invariant and never shortens the chain. -/
theorem nodeStep_spec (sync sync' : SynchronizedBlockchain) (h : PublishedValid host d sync)
    (e : Event) (hstep : nodeStep host args printProgress sync e = some sync') :
    PublishedValid host d sync' ∧
      sync.blockchain.blockList.length ≤ sync'.blockchain.blockList.length := by
  cases e with
  | mine m =>
      rcases mineStep_spec host args d key hkeys hd sync h m with ⟨out, hout, hvalid, hlen⟩
      rw [nodeStep, hout, Option.map_some, Option.some.injEq] at hstep
      rw [← hstep]
      exact ⟨hvalid, by omega⟩
  | request r => exact requestStep_spec host printProgress d sync sync' h r hstep

include hkeys hd in
/-- The invariant holds after every run from a state in which it holds. -/
theorem nodeRun_publishedValid (start : SynchronizedBlockchain) (h : PublishedValid host d start)
    (events : List Event) (sync : SynchronizedBlockchain)
    (hrun : Run.run (nodeStep host args printProgress) start events = some sync) :
    PublishedValid host d sync :=
  Run.run_invariant (PublishedValid host d)
    (fun s e s' hs hstep => (nodeStep_spec host args printProgress d key hkeys hd s s' hs e
      hstep).1) start events sync h hrun

end Runs

/-- The published chain is always valid: from a genesis block on, after any
    mining iterations and requests, the verifier reports the published chain
    valid and its difficulty is the one at the start. No event that follows
    shortens it. A mining iteration always has an outcome, and lengthens the
    chain by one block exactly if it succeeds. -/
theorem published_always_valid (host : Host) (args : MineBlocksArgs) (printProgress : Bool)
    (d version : UInt64) (genesis : Block) (key : host.ssl.PKey)
    (hkeys : SignsFor host.ssl args.minerPublicKey args.minerPrivateKey key)
    (hd : d.toNat ≤ SHA256_DIGEST_LENGTH) (hgenesis : IsGenesis genesis) (events : List Event)
    (sync : SynchronizedBlockchain)
    (hrun : Run.run (nodeStep host args printProgress) ⟨⟨[genesis], d⟩, version⟩ events =
      some sync) :
    ReportsValid host sync.blockchain ∧
      sync.blockchain.numLeadingZeroBytesRequiredInBlockHash = d ∧
      (∀ e sync', nodeStep host args printProgress sync e = some sync' →
        sync.blockchain.blockList.length ≤ sync'.blockchain.blockList.length) ∧
      ∀ m, ∃ out, mineBlocksIteration host args m sync = some out ∧
        out.sync.blockchain.blockList.length = sync.blockchain.blockList.length +
          if out.returnCode = .ok () then 1 else 0 := by
  have h := nodeRun_publishedValid host args printProgress d key hkeys hd _
    ⟨reportsValid_genesis host d genesis hgenesis, rfl⟩ events sync hrun
  refine ⟨h.valid, h.difficulty, ?_, ?_⟩
  · intro e sync' hstep
    exact (nodeStep_spec host args printProgress d key hkeys hd sync sync' h e hstep).2
  · intro m
    rcases mineStep_spec host args d key hkeys hd sync h m with ⟨out, hout, _, hlen⟩
    exact ⟨out, hout, hlen⟩

/-- A miner whose keys are empty texts, which the sample library accepts. -/
def sampleArgs : MineBlocksArgs where
  minerPublicKey := Bytes.zero MAX_SSH_KEY_LENGTH
  minerPrivateKey := Bytes.zero MAX_SSH_KEY_LENGTH
  printProgress := false
  outfile := none

theorem sampleArgs_signsFor :
    SignsFor sampleSsl sampleArgs.minerPublicKey sampleArgs.minerPrivateKey () where
  opens := rfl
  reads := rfl
  context := rfl
  init := Int.zero_lt_one
  update := fun _ => Int.zero_lt_one
  verifies := fun _ _ written _ hwritten => by
    simp only [sampleSsl, Option.some.injEq] at hwritten
    rw [← hwritten, List.length_replicate]
    exact ⟨by decide, rfl⟩

/-- An iteration that nothing interrupts. -/
def sampleConditions : MiningConditions where
  alloc := .generous
  transactionTime := 200
  blockTime := 300
  lock := 0
  unlock := 0
  readings := ⟨fun _ => false, fun _ => 0, fun _ => 0⟩

/-- A node mines, and then receives the sample chain. -/
theorem sampleNode_run :
    ∃ sync, Run.run (nodeStep sampleHost sampleArgs false) ⟨⟨[sampleGenesis], 2⟩, 0⟩
      [.mine sampleConditions, .request (sampleRequest sampleChain sampleChain_small)] =
        some sync := by
  rcases mineStep_spec sampleHost sampleArgs 2 () sampleArgs_signsFor (by decide)
    ⟨⟨[sampleGenesis], 2⟩, 0⟩ ⟨reportsValid_genesis _ 2 _ sampleGenesis_isGenesis, rfl⟩
    sampleConditions with ⟨out, hout, _, _⟩
  rcases consensusStep_spec sampleHost false out.sync _ sampleRequest_replaces.1 with
    ⟨sync, hsync, _, _⟩
  refine ⟨sync, (Run.run_cons _ _ _ _).mpr ⟨out.sync, ?_, (Run.run_cons _ _ _ _).mpr
    ⟨sync, hsync, rfl⟩⟩⟩
  rw [nodeStep, hout, Option.map_some]

/-- A node that mines and then receives the sample chain. -/
theorem published_always_valid_sample :
    ∃ sync, Run.run (nodeStep sampleHost sampleArgs false) ⟨⟨[sampleGenesis], 2⟩, 0⟩
        [.mine sampleConditions, .request (sampleRequest sampleChain sampleChain_small)] =
          some sync ∧
      ReportsValid sampleHost sync.blockchain ∧
      sync.blockchain.numLeadingZeroBytesRequiredInBlockHash = 2 := by
  rcases sampleNode_run with ⟨sync, hrun⟩
  rcases published_always_valid sampleHost sampleArgs false 2 0 sampleGenesis ()
    sampleArgs_signsFor (by decide) sampleGenesis_isGenesis _ sync hrun with ⟨hvalid, hd, _, _⟩
  exact ⟨sync, hrun, hvalid, hd⟩

end LeoCoin
