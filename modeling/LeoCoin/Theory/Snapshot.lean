import LeoCoin.Theory.Ownership
import LeoCoin.Theory.Sequential

/-!
# Snapshot

Whether the version number says which chain the miner works on.

The miner holds a chain and a number it recorded for it. The pair is a snapshot
if the number being current implies that the chain is the published one. The
first pair is read at the start and is one. Later pairs are made of a locked
read of the pointer and a load of the version after it, and a switch can come
between the two. Then the miner has recorded the new number for the old chain,
and no later comparison tells.

The counter has 64 bits, so a switch can also bring it back to a number that
was recorded for a chain replaced long ago.

## Main definitions

* `MinerPoint.record`: The chain the miner holds, and the number it has for it.
* `MinerPoint.working`: The chain it is about to verify or mine on.
* `Snapshot`: The pair is a snapshot.
* `RecordsPublished`: The condition on the steps.

## Theorems

* `MinerMove.record`: Where the pairs come from.
* `Snapshot.step`: A step that meets the condition keeps the pair a snapshot.
* `misled_of_not_recordsPublished`: A step that does not misleads the miner.
* `snapshot_of_recordsPublished`: The pair is a snapshot in every run whose
  steps meet the condition.
* `switchBeforeLoad_run`: A run in which it is not.
-/

namespace LeoCoin

/-- The chain the miner holds, and the number it takes for its version. There
    is no pair while the miner replaces its chain. -/
def MinerPoint.record (mined : UInt64) : MinerPoint → Option (Nat × UInt64)
  | .loopTest blockchain _ | .loadMined blockchain | .loadVersion blockchain _
  | .signal blockchain | .verify blockchain | .prepare blockchain | .lookUp blockchain _
  | .append blockchain _ | .report blockchain => some (blockchain, mined)
  | .nonceTest search | .nonceLoadMined search | .nonceLoadVersion search _
  | .tryNonce search => some (search.blockchain, mined)
  | .storeMined blockchain version => some (blockchain, version)
  | .start | .reread _ | .destroyOld _ _ | .reloadVersion _ | .finished _ => none

/-- The miner's chain, between its check of the version and the end of its work
    on a block. -/
def MinerPoint.working : MinerPoint → Option Nat
  | .verify blockchain | .prepare blockchain | .lookUp blockchain _ | .append blockchain _ =>
    some blockchain
  | .nonceTest search | .nonceLoadMined search | .nonceLoadVersion search _
  | .tryNonce search => some search.blockchain
  | _ => none

/-- The number the miner loaded and is about to compare with the version. -/
def MinerPoint.loaded : MinerPoint → Option UInt64
  | .loadVersion _ mined | .nonceLoadVersion _ mined => some mined
  | _ => none

/-- A loaded number is still the one the miner shares, which no other thread
    writes. -/
def Loaded (s : Threads) : Prop :=
  ∀ mined, s.miner.loaded = some mined → mined = s.syncVersionCurrentlyMined

/-- If the number the miner has for its chain is current, the chain is the
    published one. -/
def Snapshot (s : Threads) : Prop :=
  ∀ c version, s.miner.record s.syncVersionCurrentlyMined = some (c, version) →
    version = s.syncVersion → c = s.syncBlockchain

/-- When the miner loads the version to record it, the chain it has read is
    still published. A switch does not count up to the recorded number. -/
def RecordsPublished (s : Threads) : ThreadAction → Prop
  | .mine _ _ => ∀ c, s.miner = .reloadVersion c → c = s.syncBlockchain
  | .accept _ => True
  | .serve => s.switches = true → ∀ c version,
      s.miner.record s.syncVersionCurrentlyMined = some (c, version) →
        version ≠ s.syncVersion + 1

/-- A pair of the miner is one it had, or its chain is published, or it was made
    by loading the version. -/
theorem MinerMove.record {host : Host} {s : Threads} {point next : MinerPoint}
    (h : MinerMove host s point next) (c : Nat) (version : UInt64)
    (hrecord : next.record s.syncVersionCurrentlyMined = some (c, version)) :
    point.record s.syncVersionCurrentlyMined = some (c, version) ∨ c = s.syncBlockchain ∨
      point = .reloadVersion c := by
  cases h with
  | ends | outdated | rereads =>
      exact absurd hrecord (by simp only [MinerPoint.record, reduceCtorEq, not_false_eq_true])
  | starts =>
      simp only [MinerPoint.record, Option.some.injEq, Prod.mk.injEq] at hrecord
      exact Or.inr (Or.inl hrecord.1.symm)
  | reloads d =>
      simp only [MinerPoint.record, Option.some.injEq, Prod.mk.injEq] at hrecord
      exact Or.inr (Or.inr (by rw [hrecord.1]))
  | _ => exact Or.inl hrecord

theorem MinerMove.loaded {host : Host} {s : Threads} {point next : MinerPoint}
    (h : MinerMove host s point next) (mined : UInt64) (hloaded : next.loaded = some mined) :
    mined = s.syncVersionCurrentlyMined := by
  cases h with
  | loadsMined | loadsMinedAgain => exact (Option.some.inj hloaded).symm
  | _ => exact absurd hloaded (by simp only [MinerPoint.loaded, reduceCtorEq, not_false_eq_true])

theorem MinerPoint.record_of_working {point : MinerPoint} {c : Nat} (mined : UInt64)
    (h : point.working = some c) : point.record mined = some (c, mined) := by
  cases point with
  | verify | prepare | lookUp | append | nonceTest | nonceLoadMined | nonceLoadVersion
  | tryNonce =>
      rw [← Option.some.inj h]
      rfl
  | _ => exact absurd h (by simp only [MinerPoint.working, reduceCtorEq, not_false_eq_true])

theorem MinerPoint.mem_of_record {point : MinerPoint} {mined version : UInt64} {c : Nat}
    (h : point.record mined = some (c, version)) : c ∈ point.blockchains := by
  cases point with
  | start | reread | destroyOld | reloadVersion | finished =>
      exact absurd h (by simp only [MinerPoint.record, reduceCtorEq, not_false_eq_true])
  | _ =>
      simp only [MinerPoint.record, Option.some.injEq, Prod.mk.injEq] at h
      rw [← h.1]
      exact List.mem_cons_self

/-- A miner without a pair has nothing to be a snapshot. -/
theorem snapshot_of_none {s : Threads}
    (h : s.miner.record s.syncVersionCurrentlyMined = none) : Snapshot s := by
  intro c version hrecord
  rw [h] at hrecord
  exact absurd hrecord (by simp only [reduceCtorEq, not_false_eq_true])

theorem loaded_of_none {s : Threads} (h : s.miner.loaded = none) : Loaded s := by
  intro mined hloaded
  rw [h] at hloaded
  exact absurd hloaded (by simp only [reduceCtorEq, not_false_eq_true])

theorem snapshot_startup (blockchain : Blockchain) (version : UInt64) :
    Snapshot (Threads.startup blockchain version) :=
  snapshot_of_none rfl

theorem loaded_startup (blockchain : Blockchain) (version : UInt64) :
    Loaded (Threads.startup blockchain version) :=
  loaded_of_none rfl

section Steps

variable (host : Host) (args : MineBlocksArgs)

/-- Every step leaves a loaded number the one the miner shares. -/
theorem Loaded.step {s s' : Threads} (h : Loaded s) (a : ThreadAction)
    (hstep : threadStep host args s a = some s') : Loaded s' := by
  cases a with
  | mine shouldStop m =>
      rcases minerStep_cases host args s s' shouldStop m hstep with
        ⟨next, hmove, rfl⟩ | ⟨old, c, _, rfl⟩ | ⟨c, version, _, rfl⟩ |
          ⟨c, block, _, ⟨code, rfl⟩ | rfl⟩
      · exact hmove.loaded
      · exact loaded_of_none rfl
      · exact loaded_of_none rfl
      · exact loaded_of_none rfl
      · exact loaded_of_none rfl
  | accept r =>
      rcases serverAccept_cases host s s' r hstep with ⟨point, _, rfl⟩ | ⟨peer, rfl⟩
      · exact h
      · exact h
  | serve =>
      rcases serverStep_cases host s s' hstep with
        ⟨point, _, _, rfl⟩ | ⟨r, peer, isValid, _, _, rfl⟩ | ⟨peer, _, rfl⟩
      · exact h
      · exact h
      · exact h

/-- A step that meets the condition keeps the pair a snapshot. -/
theorem Snapshot.step {s s' : Threads} (h : Snapshot s) (a : ThreadAction)
    (hmeets : RecordsPublished s a) (hstep : threadStep host args s a = some s') :
    Snapshot s' := by
  cases a with
  | mine shouldStop m =>
      rcases minerStep_cases host args s s' shouldStop m hstep with
        ⟨next, hmove, rfl⟩ | ⟨old, c, hpoint, rfl⟩ | ⟨c, version, hpoint, rfl⟩ |
          ⟨c, block, hpoint, ⟨code, rfl⟩ | rfl⟩
      · intro c version hrecord hcurrent
        -- The pair was there before, or was just read, or is loaded in this step.
        rcases hmove.record c version hrecord with hbefore | heq | hreload
        · exact h c version hbefore hcurrent
        · exact heq
        · exact hmeets c hreload
      · exact snapshot_of_none rfl
      · -- What is stored is the number the miner already had.
        exact fun d v hrecord => h d v (by rw [hpoint]; exact hrecord)
      · exact snapshot_of_none rfl
      · exact fun d v hrecord => h d v (by rw [hpoint]; exact hrecord)
  | accept r =>
      rcases serverAccept_cases host s s' r hstep with ⟨point, _, rfl⟩ | ⟨peer, rfl⟩
      · exact h
      · exact h
  | serve =>
      rcases serverStep_cases host s s' hstep with
        ⟨point, _, _, rfl⟩ | ⟨r, peer, isValid, _, hswitches, rfl⟩ | ⟨peer, _, rfl⟩
      · exact h
      · exact fun c version hrecord hcurrent =>
          absurd hcurrent (hmeets hswitches c version hrecord)
      · exact h

/-- On its own, the miner comes to work on a chain, while the number it shares
    is the version and the published chain is the given one. -/
def ComesToWork (m : MiningConditions) (published : Nat) (s : Threads) (c : Nat) : Prop :=
  ∃ t, Run.Repeats (threadStep host args) (.mine false m) s t ∧
    t.miner.working = some c ∧ t.syncVersionCurrentlyMined = t.syncVersion ∧
    t.syncBlockchain = published

variable {host args}

theorem ComesToWork.now {m : MiningConditions} {s : Threads} {c : Nat}
    (hworking : s.miner.working = some c)
    (hcurrent : s.syncVersionCurrentlyMined = s.syncVersion) :
    ComesToWork host args m s.syncBlockchain s c :=
  ⟨s, .refl s, hworking, hcurrent, rfl⟩

theorem ComesToWork.verify {m : MiningConditions} {s : Threads} {c : Nat}
    (hrun : Run.Repeats (threadStep host args) (.mine false m) s { s with miner := .verify c })
    (hcurrent : s.syncVersionCurrentlyMined = s.syncVersion) :
    ComesToWork host args m s.syncBlockchain s c :=
  ⟨_, hrun, rfl, hcurrent, rfl⟩

variable (host args)

/-- A miner whose number is current comes to work on its chain, if it is not
    asked to stop and the locks are taken. -/
theorem comesToWork_of_current (m : MiningConditions) (hlock : m.lock = 0) (hunlock : m.unlock = 0)
    (s : Threads) (hloaded : Loaded s) (c : Nat)
    (hrecord : s.miner.record s.syncVersionCurrentlyMined = some (c, s.syncVersion)) :
    ComesToWork host args m s.syncBlockchain s c := by
  have hpair : ∀ d : Nat, some (d, s.syncVersionCurrentlyMined) = some (c, s.syncVersion) →
      d = c ∧ s.syncVersionCurrentlyMined = s.syncVersion := fun d h => by
    simpa only [Option.some.injEq, Prod.mk.injEq] using h
  cases hpoint : s.miner with
  | start | reread | destroyOld | reloadVersion | finished =>
      rw [hpoint] at hrecord
      exact absurd hrecord (by simp only [MinerPoint.record, reduceCtorEq, not_false_eq_true])
  | storeMined d version =>
      -- The number the miner shares is current only after it is stored.
      rw [hpoint, MinerPoint.record, Option.some.injEq, Prod.mk.injEq] at hrecord
      rcases hrecord with ⟨rfl, rfl⟩
      have hstored : threadStep host args s (.mine false m) = some { s with
          syncVersionCurrentlyMined := s.syncVersion
          miner := .signal d } := by
        simp only [threadStep, minerStep, hpoint]
      exact ⟨_, .head hstored (signal_run host args m _ d rfl hlock hunlock), rfl, rfl, rfl⟩
  | signal d =>
      rw [hpoint] at hrecord
      rcases hpair d hrecord with ⟨rfl, hcurrent⟩
      exact .verify (signal_run host args m s d hpoint hlock hunlock) hcurrent
  | loopTest d returnCode =>
      rw [hpoint] at hrecord
      rcases hpair d hrecord with ⟨rfl, hcurrent⟩
      exact .verify (loopTest_run host args m s d returnCode hpoint hcurrent) hcurrent
  | loadMined d =>
      rw [hpoint] at hrecord
      rcases hpair d hrecord with ⟨rfl, hcurrent⟩
      exact .verify (loadMined_run host args m s d hpoint hcurrent) hcurrent
  | loadVersion d mined =>
      rw [hpoint] at hrecord
      rcases hpair d hrecord with ⟨rfl, hcurrent⟩
      rw [hloaded mined (by rw [hpoint]; rfl)] at hpoint
      exact .verify (loadVersion_run host args m s d hpoint hcurrent) hcurrent
  | report d =>
      rw [hpoint] at hrecord
      rcases hpair d hrecord with ⟨rfl, hcurrent⟩
      have hreported : threadStep host args s (.mine false m) =
          some { s with miner := .loopTest d (.ok ()) } := by
        simp only [threadStep, minerStep, minerAdvance, hpoint, Option.map_some]
      exact .verify (.head hreported (loopTest_run host args m _ d _ rfl hcurrent)) hcurrent
  | verify d | prepare d | lookUp d | append d =>
      rw [hpoint] at hrecord
      rcases hpair d hrecord with ⟨rfl, hcurrent⟩
      exact .now (by rw [hpoint]; rfl) hcurrent
  | nonceTest search | nonceLoadMined search | nonceLoadVersion search | tryNonce search =>
      rw [hpoint] at hrecord
      rcases hpair _ hrecord with ⟨rfl, hcurrent⟩
      exact .now (by rw [hpoint]; rfl) hcurrent

/-- A step that does not meet the condition misleads the miner: on its own, it
    comes to work on a chain that is not the published one, while the number it
    shares is the version. -/
theorem misled_of_not_recordsPublished (m : MiningConditions) (hlock : m.lock = 0)
    (hunlock : m.unlock = 0) {s s' : Threads} (haccounted : Accounted s) (hloaded : Loaded s)
    (a : ThreadAction) (hnot : ¬ RecordsPublished s a)
    (hstep : threadStep host args s a = some s') :
    ∃ c, c ≠ s'.syncBlockchain ∧ ComesToWork host args m s'.syncBlockchain s' c := by
  cases a with
  | mine shouldStop conditions =>
      simp only [RecordsPublished, not_forall] at hnot
      rcases hnot with ⟨c, hpoint, hne⟩
      simp only [threadStep, minerStep, minerAdvance, hpoint, Option.map_some,
        Option.some.injEq] at hstep
      rw [← hstep]
      -- The load makes a current number out of a chain that is not published.
      refine ⟨c, hne, comesToWork_of_current host args m hlock hunlock _ ?_ c rfl⟩
      exact fun _ h => absurd h (by simp only [MinerPoint.loaded, reduceCtorEq,
        not_false_eq_true])
  | accept r => exact absurd trivial hnot
  | serve =>
      simp only [RecordsPublished, not_forall, not_not] at hnot
      rcases hnot with ⟨hswitches, c, version, hrecord, hversion⟩
      have hloaded' := hloaded.step host args .serve hstep
      rcases serverStep_cases host s s' hstep with
        ⟨_, hfalse, _⟩ | ⟨r, peer, isValid, hpoint, _, rfl⟩ | ⟨peer, hpoint, _⟩
      · exact absurd (hswitches.symm.trans hfalse) (by simp only [reduceCtorEq, not_false_eq_true])
      · -- The miner's chain was published before, the peer's was not.
        rcases haccounted.server peer (by rw [hpoint]; exact List.mem_cons_self) with
          ⟨_, hne, hnot⟩
        refine ⟨c, ?_, comesToWork_of_current host args m hlock hunlock _ hloaded' c ?_⟩
        · intro heq
          rcases haccounted.miner c (MinerPoint.mem_of_record hrecord) with hpublished | hmem
          · exact hne (heq.symm.trans hpublished)
          · have hpeer : c = peer := heq
            exact hnot (hpeer ▸ hmem)
        · change s.miner.record s.syncVersionCurrentlyMined = some (c, s.syncVersion + 1)
          rw [← hversion]
          exact hrecord
      · simp only [Threads.switches, hpoint, reduceCtorEq] at hswitches

end Steps

/-- The version number identifies the chain being mined: in every run of the
    two threads whose steps meet the condition, whenever the miner has checked
    the version and works on a chain, and the number it shares is the version,
    the chain is the published one. -/
theorem snapshot_of_recordsPublished (host : Host) (args : MineBlocksArgs)
    (blockchain : Blockchain) (version : UInt64) (actions : List ThreadAction) (s : Threads)
    (hmeets : Run.Meets (threadStep host args) RecordsPublished
      (Threads.startup blockchain version) actions)
    (hrun : Run.run (threadStep host args) (Threads.startup blockchain version) actions =
      some s) (c : Nat) (hworking : s.miner.working = some c)
    (hcurrent : s.syncVersionCurrentlyMined = s.syncVersion) : c = s.syncBlockchain := by
  have hsnapshot : Snapshot s := Run.run_invariant_of_meets Snapshot
    (fun s a s' h hm hstep => h.step host args a hm hstep) _ actions s
    (snapshot_startup blockchain version) hmeets hrun
  -- At work, the number recorded is the one the miner shares.
  exact hsnapshot c _ (MinerPoint.record_of_working _ hworking) hcurrent

/-- A miner that starts on the genesis block, up to its first verification. -/
theorem snapshot_of_recordsPublished_sample :
    ∃ s, Run.run (threadStep sampleHost sampleArgs) (.startup ⟨[sampleGenesis], 2⟩ 7)
        (List.replicate 4 mineOn) = some s ∧
      s.miner.working = some 0 ∧ 0 = s.syncBlockchain := by
  refine ⟨_, rfl, rfl, snapshot_of_recordsPublished sampleHost sampleArgs ⟨[sampleGenesis], 2⟩ 7
    (List.replicate 4 mineOn) _ ?_ rfl 0 rfl rfl⟩
  refine Run.meets_cons ?_ rfl (Run.meets_cons ?_ rfl (Run.meets_cons ?_ rfl
    (Run.meets_cons ?_ rfl trivial)))
  -- No step is the load of a version to record.
  all_goals exact fun _ h => nomatch h

/-- The sample chain with one more block. -/
def sampleLongerChain : Blockchain :=
  ⟨[sampleGenesis, sampleSuccessor sampleGenesis,
    sampleSuccessor (sampleSuccessor sampleGenesis)], 2⟩

theorem sampleLongerChain_small : (blockchainBytes .little sampleLongerChain).length < 2 ^ 30 := by
  rw [blockchainBytes_length]
  decide

theorem sampleLongerChain_signaturesFit : SignaturesFit sampleLongerChain := by
  intro x hx t ht
  rcases List.mem_cons.mp hx with rfl | hx
  · exact absurd ht List.not_mem_nil
  rcases List.mem_pair.mp hx with rfl | rfl
  · rw [List.mem_singleton.mp ht]
    decide
  · rw [List.mem_singleton.mp ht]
    decide

theorem sampleLongerChain_reportsValid : ReportsValid sampleHost sampleLongerChain :=
  reportsValid_concat sampleHost sampleChain (sampleSuccessor sampleGenesis) _
    (sampleChain_reportsValid 2 (by decide)) rfl
    (sampleSuccessor_succeeds 2 (by decide) (sampleSuccessor sampleGenesis))

/-- The miner reads the sample chain after a first switch, the server switches
    again, and only then the miner loads the version: it is about to verify
    the second chain with the version of the third. -/
theorem switchBeforeLoad_run :
    ∃ s, Run.run (threadStep sampleHost sampleArgs) (.startup ⟨[sampleGenesis], 2⟩ 0)
        ((mineOn :: handOver (sampleRequest sampleChain sampleChain_small)) ++
          (List.replicate 4 mineOn ++
            (handOver (sampleRequest sampleLongerChain sampleLongerChain_small) ++
              List.replicate 4 mineOn))) = some s ∧
      s.miner = .verify 1 ∧ s.syncVersionCurrentlyMined = s.syncVersion ∧
      s.syncBlockchain = 2 := by
  rcases sampleRequest_replaces with ⟨hfirst, hreplaces⟩
  rcases sampleRequest_offers .little sampleLongerChain sampleLongerChain_small
    sampleLongerChain_signaturesFit with ⟨hsecond, hoffersSecond⟩
  have hhandFirst := handOver_run sampleHost sampleArgs
    { Threads.startup ⟨[sampleGenesis], 2⟩ 0 with miner := .loopTest 0 (.ok ()) } _ sampleChain rfl
    Nat.zero_lt_one hfirst hreplaces
  have hhandSecond := handOver_run sampleHost sampleArgs
    { Threads.handedOver (Threads.startup ⟨[sampleGenesis], 2⟩ 0) sampleChain with
      miner := .destroyOld 0 1 } _ sampleLongerChain rfl (by decide) hsecond
    ⟨hoffersSecond, sampleLongerChain_reportsValid, by decide, rfl⟩
  refine ⟨_, (Run.run_append _ _ _ _).mpr ⟨_, (Run.run_cons _ _ _ _).mpr ⟨_, ?_, hhandFirst⟩,
    (Run.run_append _ _ _ _).mpr ⟨_, ?_, (Run.run_append _ _ _ _).mpr ⟨_, hhandSecond, rfl⟩⟩⟩,
    rfl, rfl, rfl⟩
  · rfl
  · rfl

end LeoCoin
