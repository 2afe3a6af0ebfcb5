import LeoCoin.Theory.Snapshot

/-!
# Append

Whether a mined block goes to the published chain.

The miner compares the versions for the last time before it tries a nonce. From
there on it is committed: if the nonce is accepted, the block is appended to
the miner's chain, whatever is published by then. A switch after that
comparison loses the block. So does a comparison that says nothing, because the
number was recorded for the wrong chain.

## Main definitions

* `Threads.committed`: The chain the miner appends to without looking again.
* `NoLateSwitch`: The condition on the steps.
* `CommittedToPublished`: The invariant.

## Theorems

* `committed_of_minerMove`: How the miner becomes committed.
* `CommittedToPublished.step`: A step that meets the condition keeps the chain
  the miner is committed to the published one.
* `append_publishes`: In every run whose steps meet the condition, a mined
  block ends the published chain.
* `lateSwitch_losesBlock`: A run in which it does not.
-/

namespace LeoCoin

/-- The chain the next block is appended to, if the versions are not compared
    again before. -/
def Threads.committed (host : Host) (s : Threads) : Option Nat :=
  match s.miner with
  | .append blockchain _ => some blockchain
  | .tryNonce search =>
    if search.accepts host (s.heap search.syncBlockchain) then some search.blockchain else none
  | _ => none

/-- The number the miner records is a version of the chain it holds, and there
    is no switch while it is committed. -/
structure NoLateSwitch (host : Host) (s : Threads) (a : ThreadAction) : Prop where
  records : RecordsPublished s a
  early : a = .serve → s.switches = true → s.committed host = none

/-- The miner is committed to no other chain than the published one. -/
def CommittedToPublished (host : Host) (s : Threads) : Prop :=
  ∀ c, s.committed host = some c → c = s.syncBlockchain

/-- A miner that becomes committed to a chain found the version to be the
    number it loaded, or was committed to that chain. -/
theorem committed_of_minerMove {host : Host} {s : Threads} {next : MinerPoint}
    (h : MinerMove host s s.miner next) (c : Nat)
    (hcommitted : Threads.committed host { s with miner := next } = some c) :
    (∃ search, search.blockchain = c ∧ s.miner = .nonceLoadVersion search s.syncVersion) ∨
      s.committed host = some c := by
  generalize hpoint : s.miner = point at h
  cases h with
  | current search =>
      -- Committed by a nonce that is going to be accepted.
      simp only [Threads.committed] at hcommitted
      by_cases haccepts : search.accepts host (s.heap search.syncBlockchain) = true
      · rw [if_pos haccepts, Option.some.injEq] at hcommitted
        exact Or.inl ⟨search, hcommitted, rfl⟩
      · rw [if_neg haccepts] at hcommitted
        exact absurd hcommitted (by simp only [reduceCtorEq, not_false_eq_true])
  | finds search haccepts =>
      simp only [Threads.committed, Option.some.injEq] at hcommitted
      refine Or.inr ?_
      rw [Threads.committed, hpoint, ← hcommitted]
      exact if_pos haccepts
  | _ => exact absurd hcommitted (by simp only [Threads.committed, reduceCtorEq, not_false_eq_true])

/-- A chain received by the server does not change what the miner is committed
    to, since it gets a name the miner has not seen. -/
theorem committed_receive {host : Host} {s : Threads} (h : Accounted s) (peer : Blockchain)
    (fresh : Nat) (server : ServerPoint) :
    Threads.committed host { s with
      heap := Function.update s.heap s.fresh peer
      fresh := fresh
      server := server } = s.committed host := by
  unfold Threads.committed
  cases hpoint : s.miner with
  | tryNonce search =>
      -- The search looks at a chain that has a name already.
      have hne : search.syncBlockchain ≠ s.fresh := by
        have hmem : search.syncBlockchain ∈ s.miner.blockchains := by
          rw [hpoint]
          exact List.mem_cons_of_mem _ List.mem_cons_self
        rcases h.miner _ hmem with heq | hmem
        · exact Nat.ne_of_lt (heq ▸ h.published_lt)
        · exact Nat.ne_of_lt (h.destroyed_lt _ hmem)
      simp only [Function.update_of_ne hne]
  | _ => rfl

section Steps

variable (host : Host) (args : MineBlocksArgs)

/-- A step that meets the condition keeps the chain the miner is committed to
    the published one. -/
theorem CommittedToPublished.step {s s' : Threads} (h : CommittedToPublished host s)
    (haccounted : Accounted s) (hloaded : Loaded s) (hsnapshot : Snapshot s) (a : ThreadAction)
    (hmeets : NoLateSwitch host s a) (hstep : threadStep host args s a = some s') :
    CommittedToPublished host s' := by
  cases a with
  | mine shouldStop m =>
      have hnone : ∀ c, (none : Option Nat) ≠ some c := fun c =>
        by simp only [ne_eq, reduceCtorEq, not_false_eq_true]
      rcases minerStep_cases host args s s' shouldStop m hstep with
        ⟨next, hmove, rfl⟩ | ⟨old, c, _, rfl⟩ | ⟨c, version, _, rfl⟩ |
          ⟨c, block, _, ⟨code, rfl⟩ | rfl⟩
      · intro c hcommitted
        rcases committed_of_minerMove hmove c hcommitted with ⟨search, rfl, hpoint⟩ | hbefore
        · -- The loaded number is the version, so the pair is current.
          have hmined := hloaded s.syncVersion (by rw [hpoint]; rfl)
          exact hsnapshot _ _ (by rw [hpoint]; rfl) hmined.symm
        · exact h c hbefore
      · exact fun c hcommitted => absurd hcommitted (hnone c)
      · exact fun c hcommitted => absurd hcommitted (hnone c)
      · exact fun c hcommitted => absurd hcommitted (hnone c)
      · exact fun c hcommitted => absurd hcommitted (hnone c)
  | accept r =>
      rcases serverAccept_cases host s s' r hstep with ⟨point, _, rfl⟩ | ⟨peer, rfl⟩
      · exact h
      · intro c hcommitted
        rw [committed_receive haccounted] at hcommitted
        exact h c hcommitted
  | serve =>
      rcases serverStep_cases host s s' hstep with
        ⟨point, _, _, rfl⟩ | ⟨r, peer, isValid, _, hswitches, rfl⟩ | ⟨peer, _, rfl⟩
      · exact h
      · intro c hcommitted
        -- A switch while committed is what the condition excludes.
        have hbefore : s.committed host = some c := hcommitted
        rw [hmeets.early rfl hswitches] at hbefore
        exact absurd hbefore (by simp only [reduceCtorEq, not_false_eq_true])
      · exact h

/-- In every run whose steps meet the condition, the miner is committed to no
    other chain than the published one. -/
theorem committedToPublished_run (blockchain : Blockchain) (version : UInt64)
    (actions : List ThreadAction) (s : Threads)
    (hmeets : Run.Meets (threadStep host args) (NoLateSwitch host)
      (Threads.startup blockchain version) actions)
    (hrun : Run.run (threadStep host args) (Threads.startup blockchain version) actions =
      some s) : CommittedToPublished host s := by
  refine (Run.run_invariant_of_meets
    (fun s => Accounted s ∧ Loaded s ∧ Snapshot s ∧ CommittedToPublished host s)
    ?_ _ actions s ?_ hmeets hrun).2.2.2
  · rintro s a s' ⟨haccounted, hloaded, hsnapshot, hcommitted⟩ hm hstep
    exact ⟨haccounted.step host args a hstep, hloaded.step host args a hstep,
      hsnapshot.step host args a hm.records hstep,
      hcommitted.step host args haccounted hloaded hsnapshot a hm hstep⟩
  · exact ⟨accounted_startup blockchain version, loaded_startup blockchain version,
      snapshot_startup blockchain version, fun c hcommitted => absurd hcommitted
        (by simp only [Threads.committed, Threads.startup, reduceCtorEq, not_false_eq_true])⟩

end Steps

/-- No mined block is lost: in every run of the two threads whose steps meet the
    condition, when the miner appends a block, the chain it appends to is the
    published one, and after it the published chain ends with that block. -/
theorem append_publishes (host : Host) (args : MineBlocksArgs) (blockchain : Blockchain)
    (version : UInt64) (actions : List ThreadAction) (s s' : Threads)
    (hmeets : Run.Meets (threadStep host args) (NoLateSwitch host)
      (Threads.startup blockchain version) actions)
    (hrun : Run.run (threadStep host args) (Threads.startup blockchain version) actions =
      some s) (c : Nat) (block : Block) (hpoint : s.miner = .append c block)
    (shouldStop : Bool) (m : MiningConditions)
    (hstep : threadStep host args s (.mine shouldStop m) = some s')
    (happended : s'.miner = .report c) :
    c = s.syncBlockchain ∧ s'.syncBlockchain = s.syncBlockchain ∧
      (s'.heap s'.syncBlockchain).blockList = (s.heap s.syncBlockchain).blockList ++ [block] := by
  have hc := committedToPublished_run host args blockchain version actions s hmeets hrun c
    (by rw [Threads.committed, hpoint])
  rcases minerStep_cases host args s s' shouldStop m hstep with
    ⟨next, hmove, rfl⟩ | ⟨old, d, hother, _⟩ | ⟨d, number, hother, _⟩ |
      ⟨d, other, hother, ⟨code, rfl⟩ | rfl⟩
  · rw [hpoint] at hmove
    cases hmove with
    | ends => exact absurd happended (by simp only [reduceCtorEq, not_false_eq_true])
  · exact absurd (hpoint.symm.trans hother) (by simp only [reduceCtorEq, not_false_eq_true])
  · exact absurd (hpoint.symm.trans hother) (by simp only [reduceCtorEq, not_false_eq_true])
  · exact absurd happended (by simp only [reduceCtorEq, not_false_eq_true])
  · rw [hpoint, MinerPoint.append.injEq] at hother
    rcases hother with ⟨rfl, rfl⟩
    refine ⟨hc, rfl, ?_⟩
    rw [← hc]
    simp only [Function.update_self]

/-- A step that nothing interrupts, at a later time. -/
def laterConditions : MiningConditions := { sampleConditions with blockTime := 400 }

def mineLater : ThreadAction := .mine false laterConditions

/-- On the sample host the first nonce is accepted. -/
theorem sampleMiner_commits :
    ∃ block, block.createdAt = 400 ∧
      Run.run (threadStep sampleHost sampleArgs) (.startup ⟨[sampleGenesis], 2⟩ 0)
        (List.replicate 11 mineLater) =
          some { Threads.startup ⟨[sampleGenesis], 2⟩ 0 with miner := .append 0 block } :=
  ⟨_, rfl, rfl⟩

/-- A miner that mines a block undisturbed. -/
theorem append_publishes_sample :
    ∃ block s s', Run.run (threadStep sampleHost sampleArgs) (.startup ⟨[sampleGenesis], 2⟩ 0)
        (List.replicate 11 mineLater) = some s ∧
      threadStep sampleHost sampleArgs s mineLater = some s' ∧
      (s'.heap s'.syncBlockchain).blockList = (s.heap s.syncBlockchain).blockList ++ [block] := by
  rcases sampleMiner_commits with ⟨block, _, hrun⟩
  have hmeets : Run.Meets (threadStep sampleHost sampleArgs) (NoLateSwitch sampleHost)
      (.startup ⟨[sampleGenesis], 2⟩ 0) (List.replicate 11 mineLater) := by
    have hquiet : ∀ s : Threads, (∀ c, s.miner ≠ .reloadVersion c) →
        NoLateSwitch sampleHost s mineLater := fun s hs =>
      ⟨fun c hc => absurd hc (hs c), fun h => absurd h (by
        simp only [mineLater, reduceCtorEq, not_false_eq_true])⟩
    iterate 11 refine Run.meets_cons (hquiet _ (fun _ h => nomatch h)) rfl ?_
    exact trivial
  exact ⟨block, _, _, hrun, rfl, (append_publishes sampleHost sampleArgs ⟨[sampleGenesis], 2⟩ 0 _ _
    _ hmeets hrun 0 block rfl false laterConditions rfl rfl).2.2⟩

/-- The miner finds a nonce, the server switches to the sample chain, and then
    the miner appends: the block goes to the chain that was replaced and
    destroyed, and the published chain does not end with it. -/
theorem lateSwitch_losesBlock :
    ∃ block s s', Run.run (threadStep sampleHost sampleArgs) (.startup ⟨[sampleGenesis], 2⟩ 0)
        (List.replicate 11 mineLater ++
          handOver (sampleRequest sampleChain sampleChain_small)) = some s ∧
      s.miner = .append 0 block ∧ s.syncBlockchain = 1 ∧
      threadStep sampleHost sampleArgs s mineLater = some s' ∧ s'.miner = .report 0 ∧
      (s'.heap s'.syncBlockchain).blockList.getLast? ≠ some block := by
  rcases sampleMiner_commits with ⟨block, htime, hrun⟩
  rcases sampleRequest_replaces with ⟨hundisturbed, hreplaces⟩
  have hhand := handOver_run sampleHost sampleArgs
    { Threads.startup ⟨[sampleGenesis], 2⟩ 0 with miner := .append 0 block } _ sampleChain rfl
    Nat.zero_lt_one hundisturbed hreplaces
  refine ⟨block, _, _, (Run.run_append _ _ _ _).mpr ⟨_, hrun, hhand⟩, rfl, rfl, rfl, rfl, ?_⟩
  intro hlast
  -- The two blocks were created at different times.
  have hlast' : some (sampleSuccessor sampleGenesis) = some block := hlast
  rw [← Option.some.inj hlast'] at htime
  exact absurd htime (by decide)

end LeoCoin
