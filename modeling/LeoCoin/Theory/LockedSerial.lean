import LeoCoin.Theory.LockedThreads
import LeoCoin.Theory.SerialRuns

/-!
# Locked Serial Runs

What the two threads with the mutex publish, they could publish one after the
other.

The server decides on lengths that it has compared before, and the miner may have
published a block since. A serial run that mines this block does not switch then,
since the peer's chain is not longer any more. But the block is thrown away, so a
serial run that leaves it out publishes the same in the end. From the comparison
to the switch both of these runs are kept: the one that publishes what is
published now, and the one that published what the lengths were compared of.

## Main definitions

* `Intended`: A serial run up to the comparison.
* `LockedSerialized`: The serial runs of a run.

## Theorems

* `intended_publishes`: The intended run publishes the peer's chain.
* `LockedSerialized.step`: Every step keeps the serial runs.
* `locked_serialized`: The serial run of a run.
-/

namespace LeoCoin

section Serial

variable (host : Host) (args : MineBlocksArgs) (printProgress : Bool)

theorem Serial.alike {d : UInt64} {t u : Threads} (h : Serial host args d t)
    (halike : Alike t u) : Serial host args d u := by
  have haccounted := h.accounted.alike halike
  rw [halike.same] at haccounted ⊢
  exact ⟨haccounted, h.published, h.chains, h.miner, h.server⟩

/-- A switch to a chain of the same difficulty keeps the invariant, whatever its
    length is. -/
theorem Serial.switch {d : UInt64} {s : Threads} (h : Serial host args d s) {peer : Nat}
    (hpeer : peer ∈ s.server.blockchains)
    (hsame : (s.heap s.syncBlockchain).numLeadingZeroBytesRequiredInBlockHash =
      (s.heap peer).numLeadingZeroBytesRequiredInBlockHash) :
    Serial host args d { s.switchTo peer with server := .idle } where
  accounted := h.accounted.switch hpeer
  published := hsame.symm.trans h.published
  chains := h.chains
  miner := h.miner
  server := trivial

/-- A serial run after which a request switches to the peer's chain, with the
    version as it is. -/
def Intended (start : SynchronizedBlockchain) (actions : List ThreadAction) (s : LockedThreads) :
    Prop :=
  ∀ ours r peer isValid, s.inside = some (.publishing ours) ∨ s.inside = some (.counting ours) →
    s.threads.server = .deciding r peer isValid →
    ∃ events c, Run.run (nodeStep host args printProgress) start events =
        some ⟨c, s.threads.syncVersion⟩ ∧
      (events.filterMap Event.handled ++ [r]).Sublist
        (actions.filterMap ThreadAction.accepted) ∧
      switchesToPeerBlockchain c (s.threads.heap peer) isValid = true

/-- After these steps, a serial run publishes what is published, and from the
    comparison to the switch another one is about to publish the peer's chain. -/
structure LockedSerialized (start : SynchronizedBlockchain) (actions : List ThreadAction)
    (s : LockedThreads) : Prop where
  order : InOrder s
  serialized : Serialized host args printProgress start actions s.atomic
  intended : Intended host args printProgress start actions s

/-- A request whose chain the server has verified publishes it, if it switches. -/
theorem verified_publishes {s : Threads} {r : Request} {peer : Nat} {isValid : Bool}
    (hkeeps : s.server.Keeps host s.heap) (hdeciding : s.server = .deciding r peer isValid)
    (hlock : r.lock = 0) (sync : SynchronizedBlockchain)
    (hswitch : switchesToPeerBlockchain sync.blockchain (s.heap peer) isValid = true) :
    nodeStep host args printProgress sync (.request r) =
      some ⟨s.heap peer, sync.version + 1⟩ := by
  rw [hdeciding] at hkeeps
  rcases hkeeps with ⟨⟨command, hrecv⟩, verdict, hverify, rfl⟩
  have hstep := consensusStep_received host printProgress sync r command _ verdict hrecv hverify
    hlock
  rw [nodeStep, hstep, considerPeerBlockchain, if_pos hswitch]

variable {host args printProgress}

/-- A step of the server that is not seen is seen by no serial run. -/
theorem Serialized.more {start : SynchronizedBlockchain} {actions : List ThreadAction}
    {s : Threads} (h : Serialized host args printProgress start actions s) (a : ThreadAction) :
    Serialized host args printProgress start (actions ++ [a]) s := by
  rcases h with ⟨hs, events, hevents, hrequests⟩
  refine ⟨hs, events, hevents, hrequests.trans ?_⟩
  rw [List.filterMap_append]
  exact List.sublist_append_left _ _

theorem Serialized.alike {start : SynchronizedBlockchain} {actions : List ThreadAction}
    {t u : Threads} (h : Serialized host args printProgress start actions t)
    (halike : Alike t u) : Serialized host args printProgress start actions u := by
  rcases h with ⟨hs, events, hevents, hrequests⟩
  have hserial := hs.alike host args halike
  rw [halike.same] at hserial ⊢
  exact ⟨hserial, events, hevents, hrequests⟩

/-- The switch publishes what the intended run publishes. -/
theorem intended_publishes {start : SynchronizedBlockchain} {actions : List ThreadAction}
    {s s' : LockedThreads} (h : LockedSerialized host args printProgress start actions s)
    (hswitch : Switches s s') :
    Serialized host args printProgress start actions s'.atomic := by
  rcases hswitch with ⟨r, peer, ours, hinside, hdeciding, hlock, hoffer, hs'⟩
  have hserver : s.atomic.server = .deciding r peer true := by
    rw [LockedThreads.atomic, hinside, hdeciding]
    rfl
  rcases h.serialized with ⟨hserial, _⟩
  rcases h.intended ours r peer true (Or.inr hinside) hdeciding with
    ⟨events, c, hevents, hrequests, hintended⟩
  -- The serial run may lack blocks that are thrown away, but not the version.
  have hpublishes := verified_publishes host args printProgress hserial.server hserver hlock
    ⟨c, s.threads.syncVersion⟩ hintended
  rw [hs']
  refine ⟨hserial.switch host args (by rw [hserver]; exact List.mem_cons_self) ?_,
    events ++ [.request r], (Run.run_append _ _ _ _).mpr ⟨_, hevents,
      (Run.run_cons _ _ _ _).mpr ⟨_, hpublishes, rfl⟩⟩, ?_⟩
  · rw [LockedThreads.atomic, hinside]
    exact hoffer.difficulty
  · change ((events ++ [Event.request r]).filterMap Event.handled ++ []).Sublist _
    rw [List.append_nil, List.filterMap_append]
    exact hrequests

/-- Where the server is not about to switch, nothing is intended. -/
theorem intended_of_elsewhere {start : SynchronizedBlockchain} {actions : List ThreadAction}
    {s : LockedThreads} (h : LockPoint.offering s.inside = false) :
    Intended host args printProgress start actions s :=
  fun _ _ _ _ hpoint _ => absurd (LockPoint.offering_of hpoint) (Bool.eq_false_iff.mp h)

/-- The miner does not write to the peer's chain, and the version stays. -/
theorem Intended.minerStep {start : SynchronizedBlockchain} {actions : List ThreadAction}
    {s s' : LockedThreads} (h : Intended host args printProgress start actions s)
    (haccounted : Accounted s.atomic) (shouldStop : Bool) (m : MiningConditions)
    (hstep : lockedMinerStep host args s shouldStop m = some s') :
    Intended host args printProgress start (actions ++ [.mine shouldStop m]) s' := by
  rcases lockedMinerStep_leavesServer host args hstep with ⟨hthreads, hleaves⟩
  intro ours r peer isValid hpoint hdeciding
  rw [hleaves.inside] at hpoint
  rw [hleaves.server] at hdeciding
  rcases h ours r peer isValid hpoint hdeciding with ⟨events, c, hevents, hrequests, hintended⟩
  -- The serial run stays as it is, whatever block the miner appends.
  refine ⟨events, c, by rw [hevents, hleaves.syncVersion], ?_, ?_⟩
  · rw [List.filterMap_append]
    exact hrequests.trans (List.sublist_append_left _ _)
  rw [minerStep_apart host args s.threads s'.threads shouldStop m hthreads
    (offered_apart haccounted hpoint hdeciding)]
  exact hintended

/-- When the lengths are compared, what is published is what a serial run has
    published. -/
theorem LockedSerialized.serverStep {start : SynchronizedBlockchain}
    {actions : List ThreadAction} {s s' : LockedThreads}
    (h : LockedSerialized host args printProgress start actions s)
    (hstep : lockedServerStep host s = some s') :
    Intended host args printProgress start (actions ++ [.serve]) s' := by
  cases hinside : s.inside with
  | none =>
      rcases lockedServerStep_outside host hinside hstep with
        ⟨houtside, _⟩ | ⟨_, _, _, _, _, _, rfl⟩
      · exact intended_of_elsewhere (by rw [houtside]; rfl)
      · exact intended_of_elsewhere rfl
  | some point =>
      rcases h.order.deciding point hinside with ⟨r, peer, isValid, hdeciding, _, _⟩
      have hs' := lockedServerStep_inside host hinside hdeciding hstep
      have hmore : ∀ requests : List Request,
          requests.Sublist (actions.filterMap ThreadAction.accepted) →
          requests.Sublist ((actions ++ [ThreadAction.serve]).filterMap
            ThreadAction.accepted) := by
        intro requests hrequests
        rw [List.filterMap_append]
        exact hrequests.trans (List.sublist_append_left _ _)
      cases point with
      -- From here on the serial run is kept as it is.
      | comparing =>
          rw [insideStep] at hs'
          split at hs'
          · rename_i hswitch
            subst hs'
            intro ours r' peer' isValid' _ hdeciding'
            have hsame := hdeciding.symm.trans hdeciding'
            rw [ServerPoint.deciding.injEq] at hsame
            rcases hsame with ⟨rfl, rfl, rfl⟩
            rcases h.serialized with ⟨_, events, hevents, hrequests⟩
            rw [LockedThreads.atomic, hinside, hdeciding] at hevents hrequests
            exact ⟨events, _, hevents, hmore _ hrequests, hswitch⟩
          · subst hs'
            exact intended_of_elsewhere rfl
      | publishing ours =>
          subst hs'
          intro _ r' peer' isValid' _ hdeciding'
          rcases h.intended ours r' peer' isValid' (Or.inl hinside) hdeciding' with
            ⟨events, c, hevents, hrequests, hintended⟩
          exact ⟨events, c, hevents, hmore _ hrequests, hintended⟩
      | _ =>
          subst hs'
          exact intended_of_elsewhere rfl

/-- Every step keeps the serial runs. -/
theorem LockedSerialized.step {start : SynchronizedBlockchain} {actions : List ThreadAction}
    {s s' : LockedThreads} (h : LockedSerialized host args printProgress start actions s)
    (a : ThreadAction) (hstep : lockedStep host args s a = some s') :
    LockedSerialized host args printProgress start (actions ++ [a]) s' := by
  have haccounted := h.serialized.1.accounted
  rcases h.order.step host args haccounted a hstep with ⟨horder, hcases⟩
  refine ⟨horder, ?_, ?_⟩
  -- What the atomic threads publish, a serial run publishes.
  · rcases hcases with ⟨hsame, _⟩ | ⟨t, ht, halike⟩ | ⟨hswitch, _⟩
    · rw [hsame]
      exact h.serialized.more a
    · exact (h.serialized.step a ht).alike halike
    · exact (intended_publishes h hswitch).more a
  · cases a with
    | mine shouldStop m => exact h.intended.minerStep haccounted shouldStop m hstep
    | accept r =>
        rcases Option.map_eq_some_iff.mp hstep with ⟨threads, haccept, rfl⟩
        refine intended_of_elsewhere ?_
        rw [show s.inside = none from h.order.accepting host haccept]
        rfl
    | serve => exact h.serverStep hstep

end Serial

/-- In every run of the two threads with the mutex, in any order of their single
    accesses, what is published when the server is outside of its critical section
    is what a run of whole iterations and whole requests publishes, one after the
    other. The requests of that run are among those that the server accepted, in
    the order in which it accepted them. -/
theorem locked_serialized (host : Host) (args : MineBlocksArgs) (printProgress : Bool)
    (blockchain : Blockchain) (version : UInt64) (actions : List ThreadAction) (s : LockedThreads)
    (hrun : Run.run (lockedStep host args) (LockedThreads.startup blockchain version) actions =
      some s) (houtside : s.inside = none) :
    ∃ events, Run.run (nodeStep host args printProgress) ⟨blockchain, version⟩ events =
        some s.threads.sync ∧
      (events.filterMap Event.handled).Sublist (actions.filterMap ThreadAction.accepted) := by
  have hstart : LockedSerialized host args printProgress ⟨blockchain, version⟩ []
      (.startup blockchain version) :=
    ⟨inOrder_startup blockchain version,
      ⟨serial_startup host args blockchain version, [], rfl, List.Sublist.refl _⟩,
      intended_of_elsewhere rfl⟩
  rcases (Run.run_history (LockedSerialized host args printProgress ⟨blockchain, version⟩)
    (fun _ _ a _ hs hstep => hs.step a hstep) [] _ actions s hstart hrun).serialized with
    ⟨_, events, hevents, hrequests⟩
  -- Outside, the atomic image publishes what the threads publish.
  rw [atomic_outside houtside] at hevents
  exact ⟨events, hevents, (List.sublist_append_left _ _).trans hrequests⟩

/-- The server takes the sample chain over, from lock to unlock. A serial run
    publishes it as well, and handles no other request. -/
theorem locked_serialized_sample :
    ∃ s events, Run.run (lockedStep sampleHost sampleArgs) (.startup ⟨[sampleGenesis], 2⟩ 0)
        ([.accept (sampleRequest sampleChain sampleChain_small), .serve, .serve, .serve] ++
          List.replicate 5 .serve) = some s ∧
      s.threads.sync = ⟨sampleChain, 1⟩ ∧
      Run.run (nodeStep sampleHost sampleArgs false) ⟨⟨[sampleGenesis], 2⟩, 0⟩ events =
        some s.threads.sync ∧
      (events.filterMap Event.handled).Sublist
        [sampleRequest sampleChain sampleChain_small] := by
  have hrun : Run.run (lockedStep sampleHost sampleArgs) (.startup ⟨[sampleGenesis], 2⟩ 0)
      ([.accept (sampleRequest sampleChain sampleChain_small), .serve, .serve, .serve] ++
        List.replicate 5 .serve) = some _ :=
    (Run.run_append _ _ _ _).mpr ⟨_, sampleOffer_run, rfl⟩
  rcases locked_serialized sampleHost sampleArgs false ⟨[sampleGenesis], 2⟩ 0 _ _ hrun rfl with
    ⟨events, hevents, hrequests⟩
  exact ⟨_, events, hrun, rfl, hevents, hrequests⟩

end LeoCoin
