import LeoCoin.Theory.SerialRuns

/-!
# Threaded Runs

What a node of whole iterations and whole requests publishes, the two threads
publish as well.

This is the converse of the serial run of a run. Events that publish nothing are
left out. A request that is published is handed over while the miner waits at
the head of its loop, so the miner's chain is not the published one any more.
Before the next block that is published, the miner reads the chain again and
takes over the version. It only does so if the versions differ, which they do
unless the version has come back to where it was. So the run must be shorter
than the range of the version.

## Main definitions

* `calmConditions`: Nothing fails.
* `Waiting`: The miner waits, and this many switches were made.

## Theorems

* `consensusStep_cases`, `mineBlocksIteration_cases`: What an event publishes.
* `reread_run`: The steps of the miner to the published chain.
* `found_run`, `verified_run`: The steps of the miner to a block.
* `Waiting.mines`, `Waiting.switches`: The threads publish a block, and a chain.
* `Waiting.event`, `Waiting.events`: The threads publish what events publish.
* `serialRun_threaded`: The run of a serial run.
-/

namespace LeoCoin

open BoundedSearch

/-- Every allocation is granted, and no lock fails. -/
def calmConditions : MiningConditions where
  alloc := .generous
  transactionTime := 0
  blockTime := 0
  lock := 0
  unlock := 0
  readings := ⟨fun _ => false, fun _ => 0, fun _ => 0⟩

section Events

variable (host : Host) (args : MineBlocksArgs) (printProgress : Bool)

/-- A request publishes nothing, or the chain that was received and verified. -/
theorem consensusStep_cases (sync sync' : SynchronizedBlockchain) (r : Request)
    (h : consensusStep host printProgress sync r = some sync') :
    sync' = sync ∨ ∃ command peer verdict,
      receivePeerBlockchain host.byteOrder r = some (.ok (command, peer)) ∧
      blockchainVerify host peer = .ok verdict ∧ r.lock = 0 ∧
      switchesToPeerBlockchain sync.blockchain peer verdict.isValidBlockchain = true ∧
      sync' = ⟨peer, sync.version + 1⟩ := by
  rcases hrecv : receivePeerBlockchain host.byteOrder r with
    _ | ⟨⟨interruption⟩ | ⟨command, peer⟩⟩
  · simp only [consensusStep, handleOneConsensusRequest, hrecv, Option.map_none,
      reduceCtorEq] at h
  · simp only [consensusStep, handleOneConsensusRequest, hrecv, Option.map_some,
      Option.some.injEq] at h
    exact Or.inl h.symm
  rcases hverify : blockchainVerify host peer with code | verdict
  · simp only [consensusStep, handleOneConsensusRequest, hrecv, hverify, Option.map_some,
      Option.some.injEq] at h
    exact Or.inl h.symm
  -- Without the lock the request fails.
  by_cases hlock : r.lock = 0
  swap
  · simp only [consensusStep, handleOneConsensusRequest, hrecv, hverify, ne_eq, hlock,
      not_false_eq_true, if_true, Option.map_some, Option.some.injEq] at h
    exact Or.inl h.symm
  rw [consensusStep_received host printProgress sync r command peer verdict hrecv hverify hlock,
    Option.some.injEq] at h
  by_cases hswitch : switchesToPeerBlockchain sync.blockchain peer verdict.isValidBlockchain = true
  · refine Or.inr ⟨command, peer, verdict, rfl, hverify, hlock, hswitch, ?_⟩
    rw [← h, considerPeerBlockchain, if_pos hswitch]
  · rw [considerPeerBlockchain, if_neg hswitch] at h
    exact Or.inl h.symm

/-- A successful search leaves the first nonce that passes. -/
theorem minedBlock_found (m : MiningConditions) (sync : SynchronizedBlockchain) (prepared : Block)
    (hprepare : prepareNextBlock host args m sync.blockchain = .ok prepared)
    (hvalid : ReportsValid host sync.blockchain)
    (hcode : (synchronizedBlockchainMineBlock host sync m.lock m.unlock prepared
      args.printProgress m.readings).returnCode = .ok ()) :
    Found host args sync.blockchain (synchronizedBlockchainMineBlock host sync m.lock m.unlock
      prepared args.printProgress m.readings).block := by
  by_cases hlock : m.lock = 0
  swap
  · rw [synchronizedBlockchainMineBlock, if_pos hlock] at hcode
    exact absurd hcode (by simp only [reduceCtorEq, not_false_eq_true])
  by_cases hunlock : m.unlock = 0
  swap
  · rw [synchronizedBlockchainMineBlock, if_neg (not_not_intro hlock), if_pos hunlock] at hcode
    exact absurd hcode (by simp only [reduceCtorEq, not_false_eq_true])
  rw [hlock, hunlock] at hcode ⊢
  -- With both calls granted, the search is the one of the model.
  have hsearch := synchronizedBlockchainMineBlock_search host prepared sync args.printProgress
    m.readings
  rcases hend : search (synchronizedRequest m.readings) (noncePasses host sync.blockchain prepared)
    numNonces 0 with ⟨p, code⟩ | p | _
  · rw [hend] at hsearch
    exact absurd (hcode.symm.trans (congrArg Prod.fst hsearch))
      (by simp only [minedResult, reduceCtorEq, not_false_eq_true])
  · rw [hend] at hsearch
    rcases search_found_iff.mp hend with ⟨hp, hclear, _, hpasses⟩
    exact ⟨hvalid, m, prepared, p, hprepare, congrArg Prod.snd hsearch, hp, hpasses,
      fun q hq => (hclear q hq).2⟩
  · rw [hend] at hsearch
    exact absurd (hcode.symm.trans (congrArg Prod.fst hsearch))
      (by simp only [minedResult, reduceCtorEq, not_false_eq_true])

/-- An iteration publishes nothing, or one more block with the first nonce that
    passes. -/
theorem mineBlocksIteration_cases (m : MiningConditions) (sync : SynchronizedBlockchain)
    (out : MiningOutcome) (h : mineBlocksIteration host args m sync = some out) :
    out.sync = sync ∨ ∃ block, Found host args sync.blockchain block ∧
      out.sync = { sync with
        blockchain := { sync.blockchain with
          blockList := sync.blockchain.blockList ++ [block] } } := by
  unfold mineBlocksIteration at h
  rcases hverify : blockchainVerify host sync.blockchain with code | ⟨_ | _, first⟩
  · simp only [hverify, Option.some.injEq] at h
    exact Or.inl (by rw [← h])
  · cases first with
    | none => simp only [hverify, reduceCtorEq] at h
    | some first =>
        simp only [hverify, Option.some.injEq] at h
        exact Or.inl (by rw [← h])
  simp only [hverify] at h
  rcases hprepare : prepareNextBlock host args m sync.blockchain with code | prepared
  · simp only [hprepare, Option.some.injEq] at h
    exact Or.inl (by rw [← h])
  simp only [hprepare] at h
  rcases hcode : (synchronizedBlockchainMineBlock host sync m.lock m.unlock prepared
    args.printProgress m.readings).returnCode with code | ⟨⟨⟩⟩
  · simp only [hcode, Option.some.injEq] at h
    exact Or.inl (by rw [← h])
  simp only [hcode] at h
  have hfound := minedBlock_found host args m sync prepared hprepare ⟨_, hverify, rfl⟩ hcode
  -- The node of the list may still not be granted.
  rcases blockchainAddBlock_obtains m.alloc 4 sync.blockchain
    (synchronizedBlockchainMineBlock host sync m.lock m.unlock prepared args.printProgress
      m.readings).block with hadd | ⟨hadd, _⟩
  · simp only [hadd, Option.some.injEq] at h
    exact Or.inr ⟨_, hfound, by rw [← h]⟩
  · simp only [hadd, Option.some.injEq] at h
    exact Or.inl (by rw [← h])

end Events

section Steps

variable (host : Host) (args : MineBlocksArgs)

/-- The miner is about to verify the published chain, with the version taken
    over. -/
def Threads.verifying (s : Threads) (destroyed : List Nat) : Threads :=
  { s with
    syncVersionCurrentlyMined := s.syncVersion
    destroyed := destroyed
    miner := .verify s.syncBlockchain }

/-- With the version outdated, the miner destroys its chain and goes on to verify
    the published one. -/
theorem reread_run (s : Threads) (c : Nat) (returnCode : Except ReturnCode Unit)
    (hpoint : s.miner = .loopTest c returnCode)
    (houtdated : s.syncVersionCurrentlyMined ≠ s.syncVersion) :
    Run.Repeats (threadStep host args) (.mine false calmConditions) s
      (s.verifying (c :: s.destroyed)) := by
  have hloop : threadStep host args s (.mine false calmConditions) =
      some { s with miner := .loadMined c } := by
    simp only [threadStep, minerStep, hpoint, minerAdvance, Bool.false_eq_true, if_false,
      Option.map_some]
  have hload : threadStep host args { s with miner := .loadMined c }
      (.mine false calmConditions) =
        some { s with miner := .loadVersion c s.syncVersionCurrentlyMined } := rfl
  have hcompare : threadStep host args { s with
      miner := .loadVersion c s.syncVersionCurrentlyMined } (.mine false calmConditions) =
        some { s with miner := .reread c } := by
    simp only [threadStep, minerStep, minerAdvance, ne_eq, houtdated, not_false_eq_true, if_true,
      Option.map_some]
  have hread : threadStep host args { s with miner := .reread c } (.mine false calmConditions) =
      some { s with miner := .destroyOld c s.syncBlockchain } := rfl
  -- Then it destroys its chain, takes over the version and signals.
  refine .head hloop (.head hload (.head hcompare (.head hread (.head rfl (.head rfl
    (.head rfl (.head ?_ (.refl _))))))))
  rfl

/-- From the verification of the published chain, with the version current, the
    miner comes to append a block with the first nonce that passes. -/
theorem found_run (s : Threads) (block : Block) (hpoint : s.miner = .verify s.syncBlockchain)
    (hcurrent : s.syncVersionCurrentlyMined = s.syncVersion)
    (hfound : Found host args (s.heap s.syncBlockchain) block) :
    ∃ m : MiningConditions, Run.Repeats (threadStep host args) (.mine false m.uninterrupted) s
      { s with miner := .append s.syncBlockchain block } := by
  rcases hfound with ⟨⟨⟨valid, first⟩, hverify, hvalid⟩, m, prepared, p, hprepare, hblock, hp,
    hpasses, hrefused⟩
  simp only at hvalid
  subst hvalid
  have hverified : threadStep host args s (.mine false m.uninterrupted) =
      some { s with miner := .prepare s.syncBlockchain } := by
    simp only [threadStep, minerStep, hpoint, minerAdvance, hverify, Option.map_some]
  have hprepared : threadStep host args { s with miner := .prepare s.syncBlockchain }
      (.mine false m.uninterrupted) =
        some { s with miner := .lookUp s.syncBlockchain prepared } := by
    simp only [threadStep, minerStep, minerAdvance, prepareNextBlock_uninterrupted, hprepare,
      Option.map_some]
  have hlooked : threadStep host args { s with miner := .lookUp s.syncBlockchain prepared }
      (.mine false m.uninterrupted) = some { s with
        miner := .nonceTest ⟨s.syncBlockchain, s.syncBlockchain, prepared, 0⟩ } := rfl
  -- The search ends at the first nonce that passes.
  have hsearch := mineLoop_search host (s.heap s.syncBlockchain) prepared args.printProgress
    (fun _ _ => none) (fun _ => none) (fun _ _ => rfl) numNonces 0 (Nat.zero_add _) Display.start
  rw [search_found hp (fun q hq => ⟨rfl, hrefused q hq⟩) rfl hpasses, minedResult, ← hblock]
    at hsearch
  have hcode := congrArg Prod.fst hsearch
  have hmined := congrArg Prod.snd hsearch
  rcases nonceLoop_run host args m.uninterrupted args.printProgress (fun _ _ => none)
    (fun _ _ => rfl) s hcurrent numNonces ⟨s.syncBlockchain, s.syncBlockchain, prepared, 0⟩
    Display.start (Nat.zero_add _) _ rfl with ⟨_, hrun⟩ | ⟨hexhausted, _⟩
  · rw [show (mineLoop host (s.heap s.syncBlockchain) args.printProgress (fun _ _ => none)
      numNonces 0 prepared Display.start).block = block from hmined] at hrun
    exact ⟨m, .head hverified (.head hprepared (.head hlooked hrun))⟩
  · exact absurd (hexhausted.symm.trans hcode) (by simp only [reduceCtorEq, not_false_eq_true])

/-- The block is published then, and the miner is back at the head of its loop. -/
theorem verified_run (s : Threads) (block : Block) (hpoint : s.miner = .verify s.syncBlockchain)
    (hcurrent : s.syncVersionCurrentlyMined = s.syncVersion)
    (hfound : Found host args (s.heap s.syncBlockchain) block) :
    ∃ m, Run.Repeats (threadStep host args) (.mine false m) s { s with
      heap := Function.update s.heap s.syncBlockchain { s.heap s.syncBlockchain with
        blockList := (s.heap s.syncBlockchain).blockList ++ [block] }
      miner := .loopTest s.syncBlockchain (.ok ()) } := by
  rcases found_run host args s block hpoint hcurrent hfound with ⟨m, hrun⟩
  have happended : threadStep host args { s with miner := .append s.syncBlockchain block }
      (.mine false m.uninterrupted) = some { s with
        heap := Function.update s.heap s.syncBlockchain { s.heap s.syncBlockchain with
          blockList := (s.heap s.syncBlockchain).blockList ++ [block] }
        miner := .report s.syncBlockchain } := rfl
  exact ⟨m.uninterrupted, hrun.trans (.head happended (.head rfl (.refl _)))⟩

/-- The miner waits at the head of its loop, and this many switches were made
    since it took over the version. -/
structure Waiting (k : Nat) (s : Threads) : Prop where
  accounted : Accounted s
  server : s.server = .idle
  version : s.syncVersion = s.syncVersionCurrentlyMined + UInt64.ofNat k
  miner : ∃ c returnCode, s.miner = .loopTest c returnCode ∧ (k = 0 → c = s.syncBlockchain)

/-- Every run keeps account of the chains. -/
theorem Accounted.run {s t : Threads} (h : Accounted s) (actions : List ThreadAction)
    (hrun : Run.run (threadStep host args) s actions = some t) : Accounted t :=
  Run.run_invariant Accounted (fun _ a _ hs hstep => hs.step host args a hstep) s actions t h hrun

/-- A block that is published is published by the threads, and the miner has
    taken over the version then. -/
theorem Waiting.mines {k : Nat} {s : Threads} (h : Waiting k s) (hk : k < 2 ^ 64) (block : Block)
    (hfound : Found host args (s.heap s.syncBlockchain) block) :
    ∃ actions t, Run.run (threadStep host args) s actions = some t ∧ Waiting 0 t ∧
      t.sync = { s.sync with
        blockchain := { s.sync.blockchain with
          blockList := s.sync.blockchain.blockList ++ [block] } } := by
  rcases h.miner with ⟨c, returnCode, hpoint, hpublished⟩
  -- Outdated or not, the miner comes to verify the published chain.
  have hverify : ∃ destroyed n,
      Run.run (threadStep host args) s (List.replicate n (.mine false calmConditions)) =
        some (s.verifying destroyed) := by
    by_cases hcurrent : s.syncVersionCurrentlyMined = s.syncVersion
    · -- No switch was made, as there are too few to come back to the version.
      have hzero : k = 0 := by
        have hversion := congrArg UInt64.toNat (hcurrent.trans h.version)
        rw [UInt64.toNat_add, UInt64.toNat_ofNat', Nat.mod_eq_of_lt hk] at hversion
        have hlt := s.syncVersionCurrentlyMined.toNat_lt
        omega
      rcases loopTest_run host args calmConditions s c returnCode hpoint hcurrent with ⟨n, hrun⟩
      refine ⟨s.destroyed, n, hrun.trans ?_⟩
      rw [Threads.verifying, ← hcurrent, hpublished hzero]
    · rcases reread_run host args s c returnCode hpoint hcurrent with ⟨n, hrun⟩
      exact ⟨_, n, hrun⟩
  rcases hverify with ⟨destroyed, n, hverify⟩
  rcases verified_run host args (s.verifying destroyed) block rfl rfl hfound with ⟨m, n', hmine⟩
  have hrun := (Run.run_append _ _ _ _).mpr ⟨_, hverify, hmine⟩
  refine ⟨_, _, hrun, ⟨h.accounted.run host args _ hrun, h.server, ?_, ?_⟩, ?_⟩
  · exact (UInt64.add_zero _).symm
  · exact ⟨_, _, rfl, fun _ => rfl⟩
  · simp only [Threads.sync, Threads.verifying, Function.update_self]

/-- A request that is published is published by the threads. -/
theorem Waiting.switches {k : Nat} {s : Threads} (h : Waiting k s) (r : Request)
    (command : CommandSendBlockchain) (peer : Blockchain) (verdict : Verdict)
    (hrecv : receivePeerBlockchain host.byteOrder r = some (.ok (command, peer)))
    (hverify : blockchainVerify host peer = .ok verdict) (hlock : r.lock = 0)
    (hswitch : switchesToPeerBlockchain (s.heap s.syncBlockchain) peer
      verdict.isValidBlockchain = true) :
    ∃ actions t, Run.run (threadStep host args) s actions = some t ∧ Waiting (k + 1) t ∧
      t.sync = ⟨peer, s.syncVersion + 1⟩ := by
  have hrun := switch_run host args s r command peer verdict h.server h.accounted.published_lt
    hrecv hverify hlock hswitch
  refine ⟨_, _, hrun, ⟨h.accounted.run host args _ hrun, h.server, ?_, ?_⟩, ?_⟩
  · change s.syncVersion + 1 = s.syncVersionCurrentlyMined + UInt64.ofNat (k + 1)
    rw [h.version, UInt64.ofNat_add, UInt64.add_assoc]
    rfl
  -- The miner waits where it was, with a chain that is destroyed.
  · rcases h.miner with ⟨c, returnCode, hpoint, _⟩
    exact ⟨c, returnCode, hpoint, fun hk => absurd hk (Nat.succ_ne_zero k)⟩
  · simp only [Threads.sync, Threads.handedOver, Function.update_self]

/-- The threads publish what an event publishes, and at most one more switch was
    made. -/
theorem Waiting.event (printProgress : Bool) {k : Nat} {s : Threads} (h : Waiting k s)
    (hk : k < 2 ^ 64) (event : Event) (sync : SynchronizedBlockchain)
    (hevent : nodeStep host args printProgress s.sync event = some sync) :
    ∃ k' actions t, k' ≤ k + 1 ∧ Run.run (threadStep host args) s actions = some t ∧
      Waiting k' t ∧ t.sync = sync := by
  -- What publishes nothing needs no step.
  cases event with
  | mine m =>
      rw [nodeStep, Option.map_eq_some_iff] at hevent
      rcases hevent with ⟨out, hout, hsync⟩
      rcases mineBlocksIteration_cases host args m s.sync out hout with
        hsame | ⟨block, hfound, hlonger⟩
      · exact ⟨k, [], s, Nat.le_succ k, rfl, h, hsame.symm.trans hsync⟩
      · rcases h.mines host args hk block hfound with ⟨actions, t, hrun, hwaiting, ht⟩
        exact ⟨0, actions, t, Nat.zero_le _, hrun, hwaiting,
          ht.trans (hlonger.symm.trans hsync)⟩
  | request r =>
      rcases consensusStep_cases host printProgress s.sync sync r hevent with
        hsame | ⟨command, peer, verdict, hrecv, hverify, hlock, hswitch, hsync⟩
      · exact ⟨k, [], s, Nat.le_succ k, rfl, h, hsame.symm⟩
      · rcases h.switches host args r command peer verdict hrecv hverify hlock hswitch with
          ⟨actions, t, hrun, hwaiting, ht⟩
        exact ⟨k + 1, actions, t, Nat.le_refl _, hrun, hwaiting, ht.trans hsync.symm⟩

/-- The threads publish what a run of events publishes, if it is too short for
    the version to come back. -/
theorem Waiting.events (printProgress : Bool) (events : List Event) {k : Nat} {s : Threads}
    (h : Waiting k s) (hk : k + events.length ≤ 2 ^ 64) (sync : SynchronizedBlockchain)
    (hevents : Run.run (nodeStep host args printProgress) s.sync events = some sync) :
    ∃ actions t, Run.run (threadStep host args) s actions = some t ∧ t.sync = sync := by
  induction events generalizing k s with
  | nil =>
      rw [Run.run, Option.some.injEq] at hevents
      exact ⟨[], s, rfl, hevents⟩
  | cons event events ih =>
      rw [List.length_cons] at hk
      rcases (Run.run_cons _ _ _ _).mp hevents with ⟨sync', hevent, hrest⟩
      rcases h.event host args printProgress (by omega) event sync' hevent with
        ⟨k', actions, t, hk', hrun, hwaiting, rfl⟩
      rcases ih hwaiting (by omega) hrest with ⟨actions', u, hrun', hu⟩
      exact ⟨actions ++ actions', u, (Run.run_append _ _ _ _).mpr ⟨t, hrun, hrun'⟩, hu⟩

end Steps

end LeoCoin
