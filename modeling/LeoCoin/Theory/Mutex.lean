import LeoCoin.Theory.Append
import LeoCoin.Theory.LockedSimulation
import LeoCoin.Theory.PublishedChain
import LeoCoin.Theory.ThreadedRuns

/-!
# Mutex

Who holds the mutex of the published chain, and what it does not keep out.

Between lock and unlock the server never waits, so it gives the mutex back after
six steps at most, whatever the miner does in the meantime, and a miner that waits
for the mutex gets it. This rests on the unlock. If it fails once, the mutex is
held for good: no request is decided on any more, and what is published is changed
by the append of a block at most.

The mutex does not protect the append. A block that is published while the server
is about to switch is thrown away for a chain that is not longer.

## Main definitions

* `LockPoint.left`: The steps of the server up to the unlock.
* `MutexKept`: The mutex is held by a server inside or by no one.
* `Stuck`: The mutex is held, and the server is outside.

## Theorems

* `MutexKept.step`, `MutexKept.freed`: The mutex is given back.
* `Stuck.step`: It is never given back.
* `mutex_law`: Every run of the two threads.
* `found_locked`: The miner comes to append a block.
* `midSwitch_losesBlock`: A block that is published and thrown away.
-/

namespace LeoCoin

/-- The steps of the server that are left up to the unlock. -/
def LockPoint.left : Option LockPoint → Nat
  | none => 0
  | some .comparing => 6
  | some (.publishing _) => 5
  | some (.counting _) => 4
  | some (.releasing _) => 3
  | some (.encoding _) => 2
  | some (.unlocking _ _) => 1

theorem LockPoint.left_pos (point : LockPoint) : 0 < LockPoint.left (some point) := by
  cases point <;> exact Nat.succ_pos _

theorem LockPoint.left_le (inside : Option LockPoint) : LockPoint.left inside ≤ 6 := by
  rcases inside with _ | point
  · exact Nat.zero_le 6
  cases point with
  | comparing => exact Nat.le_refl 6
  | _ => simp only [LockPoint.left, Nat.reduceLeDiff]

/-- The step is one of the server on a request that it has received. -/
def ThreadAction.serves : ThreadAction → Bool
  | .serve => true
  | _ => false

/-- The mutex is held by a server inside or by no one, and the request that is
    pending can unlock it. -/
structure MutexKept (s : LockedThreads) : Prop where
  order : InOrder s
  accounted : Accounted s.atomic
  free : s.inside = none → s.held = false
  pending : ∀ r ∈ s.threads.server.pending, r.unlock = 0

/-- The mutex is held, and the server is outside. -/
structure Stuck (s : LockedThreads) : Prop where
  inside : s.inside = none
  held : s.held = true

section Steps

variable (host : Host) (args : MineBlocksArgs)

theorem mutexKept_startup (blockchain : Blockchain) (version : UInt64) :
    MutexKept (.startup blockchain version) where
  order := inOrder_startup blockchain version
  accounted := accounted_startup blockchain version
  free _ := rfl
  pending _ hr := absurd hr List.not_mem_nil

/-- A locked read gives the mutex back. -/
theorem lockedMinerStep_held {s s' : LockedThreads} {shouldStop : Bool} {m : MiningConditions}
    (hunlock : m.unlock = 0) (h : lockedMinerStep host args s shouldStop m = some s') :
    s'.held = s.held := by
  unfold lockedMinerStep at h
  split at h
  · split at h
    · exact absurd h (by simp only [reduceCtorEq, not_false_eq_true])
    · rename_i hfree
      -- The mutex was free, and the unlock gives it back.
      rcases Option.map_eq_some_iff.mp h with ⟨threads, _, rfl⟩
      rw [Bool.eq_false_of_not_eq_true hfree]
      simp only [hunlock, bne_self_eq_false]
  · rcases Option.map_eq_some_iff.mp h with ⟨threads, _, rfl⟩
    rfl

/-- Inside, every step of the server brings it closer to the unlock. -/
theorem insideStep_left (s : LockedThreads) (r : Request) (peer : Nat) (isValid : Bool)
    (point : LockPoint) :
    LockPoint.left (insideStep host s r peer isValid point).inside <
      LockPoint.left (some point) := by
  cases point with
  | comparing =>
      rw [insideStep]
      -- A switch goes the longer way to the encoding.
      split
      · exact Nat.lt_succ_self 5
      · exact (by decide : 2 < 6)
  | publishing | counting | releasing | encoding | unlocking => exact Nat.lt_succ_self _

/-- The unlock succeeds, and the server is done with the request. -/
theorem insideStep_unlocks {s : LockedThreads} {r : Request} {peer : Nat} {isValid : Bool}
    {point : LockPoint} (hunlock : r.unlock = 0)
    (houtside : (insideStep host s r peer isValid point).inside = none) :
    (insideStep host s r peer isValid point).held = false ∧
      (insideStep host s r peer isValid point).threads.server.pending = [] := by
  cases point with
  | comparing =>
      rw [insideStep] at houtside
      split at houtside
      · exact absurd houtside (by simp only [reduceCtorEq, not_false_eq_true])
      · exact absurd houtside (by simp only [reduceCtorEq, not_false_eq_true])
  | unlocking switched encoded =>
      simp only [insideStep, hunlock, bne_self_eq_false, true_and, unlockedPoint]
      split
      · rfl
      · rfl
  | publishing | counting | releasing | encoding =>
      exact absurd houtside (by simp only [insideStep, reduceCtorEq, not_false_eq_true])

/-- Up to the unlock the server has the same request. -/
theorem insideStep_server (s : LockedThreads) (r : Request) (peer : Nat) (isValid : Bool)
    (point : LockPoint) (hinside : (insideStep host s r peer isValid point).inside ≠ none) :
    (insideStep host s r peer isValid point).threads.server = s.threads.server := by
  cases point with
  | comparing =>
      rw [insideStep]
      split
      · rfl
      · rfl
  | unlocking => exact absurd rfl hinside
  | publishing | counting | releasing | encoding => rfl

/-- A step that can unlock the mutex keeps it. -/
theorem MutexKept.step {s s' : LockedThreads} (h : MutexKept s) (a : ThreadAction)
    (hunlocks : Unlocks a) (hstep : lockedStep host args s a = some s') : MutexKept s' := by
  have horder := (h.order.step host args h.accounted a hstep).1
  have haccounted := h.order.accounted host args h.accounted a hstep
  cases a with
  | mine shouldStop m =>
      rcases lockedMinerStep_leavesServer host args hstep with ⟨_, hleaves⟩
      refine ⟨horder, haccounted, fun houtside => ?_, ?_⟩
      · rw [lockedMinerStep_held host args hunlocks hstep]
        exact h.free (hleaves.inside ▸ houtside)
      · rw [hleaves.server]
        exact h.pending
  | accept r =>
      rcases Option.map_eq_some_iff.mp hstep with ⟨threads, haccept, rfl⟩
      refine ⟨horder, haccounted, fun houtside => h.free houtside, fun r' hr' => ?_⟩
      rw [serverAccept_pending host haccept r' hr']
      exact hunlocks
  | serve =>
      cases hinside : s.inside with
      | none =>
          rcases lockedServerStep_outside host hinside hstep with
            ⟨_, hthreads, _, hheld⟩ | ⟨_, _, _, _, _, _, rfl⟩
          · exact ⟨horder, haccounted, fun _ => hheld.trans (h.free hinside),
              fun r hr => h.pending r (serverStep_pending host hthreads r hr)⟩
          · exact ⟨horder, haccounted, fun houtside => absurd houtside (by simp only [reduceCtorEq,
              not_false_eq_true]), h.pending⟩
      | some point =>
          rcases h.order.deciding point hinside with ⟨r, peer, isValid, hdeciding, _, _⟩
          have hunlock := h.pending r (by rw [hdeciding]; exact List.mem_cons_self)
          have hs' := lockedServerStep_inside host hinside hdeciding hstep
          subst hs'
          refine ⟨horder, haccounted, fun houtside => (insideStep_unlocks host hunlock houtside).1,
            fun r' hr' => ?_⟩
          -- Outside again, there is no request any more.
          by_cases houtside : (insideStep host s r peer isValid point).inside = none
          · rw [(insideStep_unlocks host hunlock houtside).2] at hr'
            exact absurd hr' List.not_mem_nil
          · rw [insideStep_server host s r peer isValid point houtside] at hr'
            exact h.pending r' hr'

/-- With as many steps of the server as are left up to the unlock, the mutex gets
    free, whatever the miner does in between. -/
theorem MutexKept.freed {s t : LockedThreads} (h : MutexKept s) (more : List ThreadAction)
    (hunlocks : ∀ a ∈ more, Unlocks a) (hrun : Run.run (lockedStep host args) s more = some t)
    (hserves : LockPoint.left s.inside ≤ more.countP ThreadAction.serves) :
    ∃ before after u, more = before ++ after ∧
      Run.run (lockedStep host args) s before = some u ∧ u.held = false := by
  -- Induction on the steps, with what is left up to the unlock going down.
  induction more generalizing s with
  | nil =>
      cases hinside : s.inside with
      | none => exact ⟨[], [], s, rfl, rfl, h.free hinside⟩
      | some point =>
          rw [hinside, List.countP_nil] at hserves
          exact absurd hserves (Nat.not_le_of_lt point.left_pos)
  | cons a more ih =>
      cases hinside : s.inside with
      | none => exact ⟨[], a :: more, s, rfl, rfl, h.free hinside⟩
      | some point =>
          rcases (Run.run_cons _ _ _ _).mp hrun with ⟨s₁, hstep, hrest⟩
          have hkept := h.step host args a (hunlocks a List.mem_cons_self) hstep
          have hleft : LockPoint.left s₁.inside ≤ more.countP ThreadAction.serves := by
            cases a with
            | mine shouldStop m =>
                rw [(lockedMinerStep_leavesServer host args hstep).2.inside]
                exact hserves
            | accept r =>
                rcases Option.map_eq_some_iff.mp hstep with ⟨threads, haccept, _⟩
                -- Inside, the server receives nothing.
                exact absurd (hinside.symm.trans (h.order.accepting host haccept))
                  (by simp only [reduceCtorEq, not_false_eq_true])
            | serve =>
                rcases h.order.deciding point hinside with ⟨r, peer, isValid, hdeciding, _, _⟩
                have hcloser := insideStep_left host s r peer isValid point
                rw [← lockedServerStep_inside host hinside hdeciding hstep, ← hinside] at hcloser
                rw [List.countP_cons_of_pos rfl] at hserves
                exact Nat.le_of_lt_succ (Nat.lt_of_lt_of_le hcloser hserves)
          rcases ih hkept (fun b hb => hunlocks b (List.mem_cons_of_mem a hb)) hrest hleft with
            ⟨before, after, u, rfl, hbefore, hfree⟩
          exact ⟨a :: before, after, u, rfl, (Run.run_cons _ _ _ _).mpr ⟨s₁, hstep, hbefore⟩, hfree⟩

/-- A mutex that could not be unlocked stays held, and there is no switch. -/
theorem Stuck.step {s s' : LockedThreads} (h : Stuck s) (a : ThreadAction)
    (hstep : lockedStep host args s a = some s') :
    Stuck s' ∧ s'.threads.syncBlockchain = s.threads.syncBlockchain ∧
      s'.threads.syncVersion = s.threads.syncVersion := by
  cases a with
  | mine shouldStop m =>
      rcases lockedMinerStep_cases host args s s' shouldStop m hstep with ⟨_, _, _, _, hheld⟩
      rcases lockedMinerStep_leavesServer host args hstep with ⟨_, hleaves⟩
      exact ⟨⟨hleaves.inside.trans h.inside, hheld h.held⟩, hleaves.syncBlockchain,
        hleaves.syncVersion⟩
  | accept r =>
      rcases Option.map_eq_some_iff.mp hstep with ⟨threads, haccept, rfl⟩
      rcases serverAccept_cases host s.threads threads r haccept with
        ⟨point, _, rfl⟩ | ⟨peer, rfl⟩
      · exact ⟨⟨h.inside, h.held⟩, rfl, rfl⟩
      · exact ⟨⟨h.inside, h.held⟩, rfl, rfl⟩
  | serve =>
      rcases lockedServerStep_outside host h.inside hstep with
        ⟨houtside, hthreads, hswitches, hheld⟩ | ⟨_, _, _, _, _, hfree, _⟩
      · have hsame : s'.threads.syncBlockchain = s.threads.syncBlockchain ∧
            s'.threads.syncVersion = s.threads.syncVersion := by
          rcases serverStep_cases host s.threads s'.threads hthreads with
            ⟨point, _, _, hs'⟩ | ⟨_, _, _, _, hswitch, _⟩ | ⟨peer, _, hs'⟩
          · rw [hs']
            exact ⟨rfl, rfl⟩
          · rw [hswitches] at hswitch
            exact absurd hswitch Bool.false_ne_true
          · rw [hs']
            exact ⟨rfl, rfl⟩
        exact ⟨⟨houtside, hheld.trans h.held⟩, hsame⟩
      -- To go inside, the server would need a free mutex.
      · rw [h.held] at hfree
        exact absurd hfree (by simp only [Bool.true_eq_false, not_false_eq_true])

end Steps

/-- If the mutex can be unlocked, it is held exactly while the server is between
    lock and unlock. Six steps of the server are left up to the unlock at most, and
    every run in which the server takes as many comes to a state in which the mutex
    is free, wherever the steps of the miner fall. If an unlock has failed, the
    mutex is held ever after, and the pointer to the published chain and its
    version do not change any more. -/
theorem mutex_law (host : Host) (args : MineBlocksArgs) (blockchain : Blockchain)
    (version : UInt64) (actions : List ThreadAction) (s : LockedThreads)
    (hrun : Run.run (lockedStep host args) (LockedThreads.startup blockchain version) actions =
      some s) :
    ((∀ a ∈ actions, Unlocks a) → (s.held = true ↔ s.inside ≠ none) ∧
      LockPoint.left s.inside ≤ 6 ∧
      ∀ more t, (∀ a ∈ more, Unlocks a) → Run.run (lockedStep host args) s more = some t →
        LockPoint.left s.inside ≤ more.countP ThreadAction.serves →
        ∃ before after u, more = before ++ after ∧
          Run.run (lockedStep host args) s before = some u ∧ u.held = false) ∧
    (s.held = true → s.inside = none → ∀ more t, Run.run (lockedStep host args) s more = some t →
      t.held = true ∧ t.inside = none ∧
        t.threads.syncBlockchain = s.threads.syncBlockchain ∧
        t.threads.syncVersion = s.threads.syncVersion) := by
  refine ⟨fun hunlocks => ?_, fun hheld hinside more t hmore => ?_⟩
  · have hkept : MutexKept s := Run.run_invariant_of_meets (C := fun _ a => Unlocks a) MutexKept
      (fun _ a _ h hC hstep => h.step host args a hC hstep) _ actions s
      (mutexKept_startup blockchain version)
      (Run.meets_of_mem _ _ fun a ha _ => hunlocks a ha) hrun
    refine ⟨⟨fun hheld hinside => ?_, fun hinside => ?_⟩, LockPoint.left_le s.inside,
      fun more t hmore hrun' hserves => hkept.freed host args more hmore hrun' hserves⟩
    · rw [hkept.free hinside] at hheld
      exact absurd hheld Bool.false_ne_true
    · rcases Option.ne_none_iff_exists'.mp hinside with ⟨point, hpoint⟩
      exact hkept.order.held point hpoint
  -- No step gives the mutex back, and none gets past it.
  · have hstuck := Run.run_invariant
      (fun u => Stuck u ∧ u.threads.syncBlockchain = s.threads.syncBlockchain ∧
        u.threads.syncVersion = s.threads.syncVersion)
      (fun u a u' hu hstep => by
        rcases hu.1.step host args a hstep with ⟨hstuck, hpointer, hversion⟩
        exact ⟨hstuck, hpointer.trans hu.2.1, hversion.trans hu.2.2⟩)
      s more t ⟨⟨hinside, hheld⟩, rfl, rfl⟩ hmore
    exact ⟨hstuck.1.held, hstuck.1.inside, hstuck.2⟩

/-- The server is about to store the pointer to the sample chain, and gives the
    mutex back after five more steps. -/
theorem mutex_law_sample :
    ∃ s before after u, Run.run (lockedStep sampleHost sampleArgs)
        (.startup ⟨[sampleGenesis], 2⟩ 0)
        [.accept (sampleRequest sampleChain sampleChain_small), .serve, .serve, .serve] =
          some s ∧
      s.inside = some (.publishing 0) ∧ s.held = true ∧
      List.replicate 5 .serve = before ++ after ∧
      Run.run (lockedStep sampleHost sampleArgs) s before = some u ∧ u.held = false := by
  rcases (mutex_law sampleHost sampleArgs ⟨[sampleGenesis], 2⟩ 0 _ _ sampleOffer_run).1
    (by
      simp only [List.mem_cons, List.not_mem_nil, or_false, forall_eq_or_imp, forall_eq, Unlocks,
        and_self, and_true]
      rfl) with ⟨hheld, -, hfreed⟩
  rcases hfreed (List.replicate 5 .serve) _
    (fun a ha => by rw [List.eq_of_mem_replicate ha]; trivial) rfl (Nat.le_refl 5) with
    ⟨before, after, u, hsplit, hbefore, hfree⟩
  exact ⟨_, before, after, u, sampleOffer_run, rfl, hheld.mpr (by simp only [ne_eq, reduceCtorEq,
    not_false_eq_true]), hsplit, hbefore, hfree⟩

/-- The miner comes to append the first block that it finds, while the server is
    outside. -/
theorem found_locked (host : Host) (args : MineBlocksArgs) (blockchain : Blockchain)
    (version : UInt64) (block : Block) (hfound : Found host args blockchain block) :
    ∃ actions, Run.run (lockedStep host args) (LockedThreads.startup blockchain version) actions =
      some ⟨{ Threads.startup blockchain version with miner := .append 0 block }, none, false⟩ := by
  have hstart : threadStep host args (Threads.startup blockchain version)
      (.mine false calmConditions) =
        some { Threads.startup blockchain version with miner := .loopTest 0 (.ok ()) } := rfl
  rcases loopTest_run host args calmConditions
    { Threads.startup blockchain version with miner := .loopTest 0 (.ok ()) } 0 _ rfl rfl with
    ⟨k, hverify⟩
  rcases found_run host args { Threads.startup blockchain version with miner := .verify 0 } block
    rfl rfl hfound with ⟨m, l, happend⟩
  have hrun := (Run.run_append _ _ _ _).mpr
    ⟨_, (Run.run_cons _ _ _ _).mpr ⟨_, hstart, hverify⟩, happend⟩
  have hunlocks : ∀ a ∈ .mine false calmConditions ::
      List.replicate k (.mine false calmConditions) ++
        List.replicate l (.mine false m.uninterrupted), Unlocks a := by
    intro a ha
    rcases List.mem_append.mp ha with hcalm | hfinding
    · rw [← List.replicate_succ] at hcalm
      rw [List.eq_of_mem_replicate hcalm]
      rfl
    · rw [List.eq_of_mem_replicate hfinding]
      rfl
  -- The mutex does not stand in the way of a server that is outside.
  rcases Run.run_simulates Outside (fun u a => Unlocks a ∧ KeepsOffer u a)
    (fun s a s' t houtside hunlocks hstep => houtside.step host args a hunlocks hstep)
    _ _ _ (.startup blockchain version) ⟨rfl, fun _ hr => absurd hr List.not_mem_nil⟩
    (Run.meets_of_mem _ _ fun a ha _ => hunlocks a ha) hrun with ⟨actions, _, hlocked, _, rfl, _⟩
  exact ⟨actions, hlocked⟩

/-- Whatever block the miner can find, it can publish it while the server is about
    to switch to a chain of one more block. Then the chain with the block is
    destroyed for a chain of the same length. -/
theorem midSwitch_losesBlock (host : Host) (args : MineBlocksArgs) (blockchain : Blockchain)
    (version : UInt64) (block : Block) (hfound : Found host args blockchain block) (r : Request)
    (hr : Undisturbed r) (peer : Blockchain)
    (hreplaces : Replaces host ⟨blockchain, version⟩ r peer)
    (hone : peer.blockList.length = blockchain.blockList.length + 1) :
    ∃ before after s t, Run.run (lockedStep host args) (LockedThreads.startup blockchain version)
        before = some s ∧
      s.inside = some (.publishing s.threads.syncBlockchain) ∧
      s.threads.sync = ⟨{ blockchain with blockList := blockchain.blockList ++ [block] },
        version⟩ ∧
      Run.run (lockedStep host args) s after = some t ∧ t.inside = none ∧
      t.threads.sync = ⟨peer, version + 1⟩ ∧
      t.threads.publishedLength = s.threads.publishedLength ∧
      t.threads.destroyed = [s.threads.syncBlockchain] := by
  rcases found_locked host args blockchain version block hfound with ⟨actions, hactions⟩
  rcases hreplaces.received hr with ⟨command, verdict, hrecv, hverify, hlock, hswitch⟩
  have hoffer := offer_run host args
    { Threads.startup blockchain version with miner := .append 0 block } r command peer verdict rfl
    Nat.zero_lt_one hrecv hverify hlock hswitch
  -- The append is the step between the comparison and the switch.
  refine ⟨actions ++ ([.accept r, .serve, .serve, .serve] ++ [.mine false calmConditions]),
    List.replicate 5 .serve, _, _, (Run.run_append _ _ _ _).mpr ⟨_, hactions,
      (Run.run_append _ _ _ _).mpr ⟨_, hoffer, rfl⟩⟩, rfl, ?_, rfl, rfl, ?_, ?_, rfl⟩
  · rfl
  · rfl
  · have happended : (blockchain.blockList ++ [block]).length =
        blockchain.blockList.length + 1 := List.length_append
    exact hone.trans happended.symm

/-- The sample miner publishes its block while the server is about to switch to
    the sample chain. -/
theorem midSwitch_losesBlock_sample :
    ∃ block before after s t, Run.run (lockedStep sampleHost sampleArgs)
        (.startup ⟨[sampleGenesis], 2⟩ 0) before = some s ∧
      s.threads.sync = ⟨⟨[sampleGenesis, block], 2⟩, 0⟩ ∧
      Run.run (lockedStep sampleHost sampleArgs) s after = some t ∧
      t.threads.sync = ⟨sampleChain, 1⟩ := by
  rcases sampleMiner_commits with ⟨block, _, hcommits⟩
  have hserial : Serial sampleHost sampleArgs 2 _ := Run.run_invariant
    (Serial sampleHost sampleArgs 2) (fun s a s' h hstep => (h.step sampleHost sampleArgs false a
      hstep).1) _ _ _ (serial_startup _ _ ⟨[sampleGenesis], 2⟩ 0) hcommits
  rcases sampleRequest_replaces with ⟨hundisturbed, hreplaces⟩
  rcases midSwitch_losesBlock sampleHost sampleArgs ⟨[sampleGenesis], 2⟩ 0 block hserial.miner
    (sampleRequest sampleChain sampleChain_small) hundisturbed sampleChain hreplaces rfl with
    ⟨before, after, s, t, hbefore, _, hsync, hafter, _, hsync', _⟩
  exact ⟨block, before, after, s, t, hbefore, hsync, hafter, hsync'⟩

end LeoCoin
