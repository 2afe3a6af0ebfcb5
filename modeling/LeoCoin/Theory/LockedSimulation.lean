import LeoCoin.Theory.LockedThreads
import LeoCoin.Theory.SerialRuns

/-!
# Locked Simulation

When the server may be taken to decide in one step.

With the mutex, the server decides in several steps, and the miner may take its own
in between. If it does not append to the published chain between the comparison
and the switch, the threads whose server decides in one step can follow. They can
be followed in turn, as a decision can be made from lock to unlock without an
interruption. A mutex that cannot be unlocked is never free again, so it must
always be possible to unlock it.

## Main definitions

* `KeepsOffer`: The step appends no block between the comparison and the switch.
* `Unlocks`: The mutex can be unlocked.
* `Follows`, `Outside`: The relations between the states.

## Theorems

* `Follows.step`: The atomic threads follow.
* `deciding_locked`, `Outside.step`: They are followed.
* `locked_iff_atomic`: Both come to the same.
-/

namespace LeoCoin

/-- No block is appended to the published chain from the comparison to the
    switch. -/
def KeepsOffer (s : LockedThreads) (a : ThreadAction) : Prop :=
  ∀ ours block, s.inside = some (.publishing ours) ∨ s.inside = some (.counting ours) →
    s.threads.miner = .append ours block → ∀ shouldStop m, a ≠ .mine shouldStop m

/-- The mutex can be unlocked. -/
def Unlocks : ThreadAction → Prop
  | .mine _ m => m.unlock = 0
  | .accept r => r.unlock = 0
  | .serve => True

/-- The peer's chain is longer than the published one up to the switch. -/
def StillLonger (s : LockedThreads) : Prop :=
  ∀ ours, s.inside = some (.publishing ours) ∨ s.inside = some (.counting ours) →
    ∀ r peer isValid, s.threads.server = .deciding r peer isValid →
      (s.threads.heap ours).blockList.length < (s.threads.heap peer).blockList.length

section Simulation

variable (host : Host) (args : MineBlocksArgs)

/-- Where the server is not about to switch, it does not matter. -/
theorem stillLonger_of_elsewhere {s : LockedThreads} (h : LockPoint.offering s.inside = false) :
    StillLonger s :=
  fun _ hpoint => absurd (LockPoint.offering_of hpoint) (Bool.eq_false_iff.mp h)

/-- If the miner does not append to the published chain, the peer's stays
    longer. -/
theorem StillLonger.minerStep {s s' : LockedThreads} (h : StillLonger s)
    (haccounted : Accounted s.atomic) (shouldStop : Bool) (m : MiningConditions)
    (hkeeps : KeepsOffer s (.mine shouldStop m))
    (hstep : lockedMinerStep host args s shouldStop m = some s') : StillLonger s' := by
  rcases lockedMinerStep_leavesServer host args hstep with ⟨hthreads, hleaves⟩
  intro ours hpoint r peer isValid hdeciding
  rw [hleaves.inside] at hpoint
  rw [hleaves.server] at hdeciding
  have hbefore := h ours hpoint r peer isValid hdeciding
  rw [minerStep_apart host args s.threads s'.threads shouldStop m hthreads
    (offered_apart haccounted hpoint hdeciding)]
  rcases minerStep_heap host args s.threads s'.threads shouldStop m hthreads with
    hheap | ⟨c, block, happend, _, hheap⟩
  · rw [hheap]
    exact hbefore
  -- The block that is appended does not go to the published chain.
  have hours : ours ≠ c := by
    rintro rfl
    exact hkeeps ours block hpoint happend shouldStop m rfl
  rw [hheap, Function.update_of_ne hours]
  exact hbefore

/-- The server goes on to switch only if the peer's chain is longer. -/
theorem StillLonger.serverStep {s s' : LockedThreads} (h : StillLonger s) (horder : InOrder s)
    (hstep : lockedServerStep host s = some s') : StillLonger s' := by
  cases hinside : s.inside with
  | none =>
      rcases lockedServerStep_outside host hinside hstep with
        ⟨houtside, _⟩ | ⟨_, _, _, _, _, _, rfl⟩
      · exact stillLonger_of_elsewhere (by rw [houtside]; rfl)
      · exact stillLonger_of_elsewhere rfl
  | some point =>
      rcases horder.deciding point hinside with ⟨r, peer, isValid, hdeciding, hlock, hdecided⟩
      have hs' := lockedServerStep_inside host hinside hdeciding hstep
      cases point with
      -- The comparison is the only step that makes an offer.
      | comparing =>
          rw [insideStep] at hs'
          split at hs'
          · rename_i hswitch
            rcases (switchesToPeerBlockchain_iff _ _ _).mp hswitch with ⟨_, hlonger, _⟩
            subst hs'
            intro ours hpoint r' peer' isValid' hdeciding'
            have hsame := hdeciding.symm.trans hdeciding'
            rw [ServerPoint.deciding.injEq] at hsame
            rw [← hsame.2.1]
            simp only [Option.some.injEq, LockPoint.publishing.injEq, reduceCtorEq, or_false]
              at hpoint
            rw [← hpoint]
            exact hlonger
          · subst hs'
            exact stillLonger_of_elsewhere rfl
      | publishing ours' =>
          subst hs'
          intro ours hpoint r' peer' isValid' hdeciding'
          simp only [insideStep, Option.some.injEq, reduceCtorEq, LockPoint.counting.injEq,
            false_or] at hpoint
          exact h ours (Or.inl (hpoint ▸ hinside)) r' peer' isValid' hdeciding'
      | _ =>
          subst hs'
          exact stillLonger_of_elsewhere rfl

/-- The atomic threads are where these threads are, and what the server decides
    on holds. -/
structure Follows (s : LockedThreads) (t : Threads) : Prop where
  order : InOrder s
  accounted : Accounted s.atomic
  longer : StillLonger s
  alike : Alike t s.atomic

theorem follows_startup (blockchain : Blockchain) (version : UInt64) :
    Follows (.startup blockchain version) (.startup blockchain version) where
  order := inOrder_startup blockchain version
  accounted := accounted_startup blockchain version
  longer := stillLonger_of_elsewhere rfl
  alike := .refl _

/-- If the peer's chain is still longer, the switch is one of the atomic
    threads. -/
theorem switches_atomic {s s' : LockedThreads} (hswitch : Switches s s') (hlonger : StillLonger s) :
    serverStep host s.atomic = some s'.atomic := by
  rcases hswitch with ⟨r, peer, ours, hinside, hdeciding, hlock, hoffer, hs'⟩
  have hserver : s.atomic.server = .deciding r peer true := by
    rw [LockedThreads.atomic, hinside, hdeciding]
    rfl
  rw [hs']
  refine serverStep_switches host s.atomic r peer true hserver hlock ?_
  have hpublished : s.atomic.syncBlockchain = ours := by
    rw [LockedThreads.atomic, hinside]
    rfl
  simp only [Threads.switches, hserver, hlock, beq_self_eq_true, Bool.true_and, hpublished]
  -- The atomic server compares the lengths at this moment.
  exact (switchesToPeerBlockchain_iff _ _ _).mpr
    ⟨rfl, hlonger ours (Or.inr hinside) r peer true hdeciding, hoffer.difficulty⟩

/-- The atomic threads follow every step that keeps the offer. -/
theorem Follows.step {s s' : LockedThreads} {t : Threads} (h : Follows s t) (a : ThreadAction)
    (hkeeps : KeepsOffer s a) (hstep : lockedStep host args s a = some s') :
    Follows s' t ∨ ∃ t', threadStep host args t a = some t' ∧ Follows s' t' := by
  rcases h.order.step host args h.accounted a hstep with ⟨horder, hcases⟩
  have haccounted := h.order.accounted host args h.accounted a hstep
  have hlonger : StillLonger s' := by
    cases a with
    | mine shouldStop m => exact h.longer.minerStep host args h.accounted shouldStop m hkeeps hstep
    | accept r =>
        rcases Option.map_eq_some_iff.mp hstep with ⟨threads, haccept, rfl⟩
        refine stillLonger_of_elsewhere ?_
        rw [show s.inside = none from h.order.accepting host haccept]
        rfl
    | serve => exact h.longer.serverStep host h.order hstep
  -- A step of the atomic image is a step of the threads that follow.
  have hfollows : ∀ u, threadStep host args s.atomic a = some u → Alike u s'.atomic →
      ∃ t', threadStep host args t a = some t' ∧ Follows s' t' := by
    intro u hu halike
    rcases h.alike.symm.step host args a hu with ⟨t', ht', hsame⟩
    exact ⟨t', ht', horder, haccounted, hlonger, hsame.symm.trans halike⟩
  rcases hcases with ⟨hsame, _⟩ | ⟨u, hu, halike⟩ | ⟨hswitch, rfl⟩
  · exact Or.inl ⟨horder, haccounted, hlonger, hsame ▸ h.alike⟩
  · exact Or.inr (hfollows u hu halike)
  · exact Or.inr (hfollows _ (switches_atomic host hswitch h.longer) (.refl _))

end Simulation

section Locking

variable (host : Host) (args : MineBlocksArgs)

/-- The decision of the server, from lock to unlock. -/
theorem deciding_locked (s : Threads) (r : Request) (peer : Nat) (isValid : Bool)
    (hdeciding : s.server = .deciding r peer isValid) (hlock : r.lock = 0) (hunlock : r.unlock = 0)
    (s' : Threads) (hstep : serverStep host s = some s') :
    Run.Repeats (lockedStep host args) .serve ⟨s, none, false⟩ ⟨s', none, false⟩ := by
  have hfree : (r.unlock != 0) = false := by rw [hunlock]; rfl
  have hdecision : switchesToPeerBlockchain (s.heap s.syncBlockchain) (s.heap peer) isValid =
      s.switches := by
    simp only [Threads.switches, hdeciding, hlock, beq_self_eq_true, Bool.true_and]
  -- Lock and comparison are the same in both cases.
  refine .head (lockedServerStep_lock host s r peer isValid hdeciding hlock) (.head
    (lockedServerStep_deciding host s .comparing true r peer isValid hdeciding) ?_)
  rw [insideStep, hdecision]
  -- Without a switch two steps are left, with one five.
  rcases hswitches : s.switches with _ | _
  · rw [serverStep_declines host s r peer isValid hdeciding hlock hswitches, Option.some.injEq]
      at hstep
    rw [if_neg Bool.false_ne_true, ← hstep]
    refine .head (lockedServerStep_deciding host s _ true r peer isValid hdeciding) (.head
      (lockedServerStep_deciding host s (.unlocking false _) true r peer isValid hdeciding) ?_)
    rw [insideStep, hfree]
    exact .refl _
  · rw [serverStep_switches host s r peer isValid hdeciding hlock hswitches, Option.some.injEq]
      at hstep
    rw [if_pos rfl, ← hstep]
    refine .head (lockedServerStep_deciding host s _ true r peer isValid hdeciding) (.head
      (lockedServerStep_deciding host { s with syncBlockchain := peer } _ true r peer isValid
        hdeciding) (.head
      (lockedServerStep_deciding host { s with
        syncBlockchain := peer
        syncVersion := s.syncVersion + 1 } _ true r peer isValid hdeciding) (.head
      (lockedServerStep_deciding host (s.switchTo peer) _ true r peer isValid hdeciding) (.head
      (lockedServerStep_deciding host (s.switchTo peer) (.unlocking true _) true r peer isValid
        hdeciding) ?_))))
    rw [insideStep, hfree, unlockedPoint, if_neg (fun h => absurd h.2.2 (by decide))]
    exact .refl _

/-- The server is outside, the mutex is free, and the request that is pending can
    unlock it. -/
structure Outside (s : Threads) (t : LockedThreads) : Prop where
  eq : t = ⟨s, none, false⟩
  pending : ∀ r ∈ s.server.pending, r.unlock = 0

/-- Only the request that is received gets pending. -/
theorem serverAccept_pending {s s' : Threads} {r : Request} (h : serverAccept host s r = some s') :
    ∀ r' ∈ s'.server.pending, r' = r := by
  rcases serverAccept_cases host s s' r h with ⟨point, hnone, rfl⟩ | ⟨peer, rfl⟩
  · have hempty : point.pending = [] := by
      cases point with
      | verifying | deciding => exact absurd hnone (List.cons_ne_nil _ _)
      | _ => rfl
    intro r' hr'
    rw [hempty] at hr'
    exact absurd hr' List.not_mem_nil
  · exact fun r' hr' => List.mem_singleton.mp hr'

/-- A step of the server leaves no request pending that was not. -/
theorem serverStep_pending {s s' : Threads} (h : serverStep host s = some s') :
    ∀ r ∈ s'.server.pending, r ∈ s.server.pending := by
  have hnone : s'.server.pending = [] → ∀ r ∈ s'.server.pending, r ∈ s.server.pending :=
    fun hnil r hr => absurd (hnil ▸ hr) List.not_mem_nil
  cases hpoint : s.server with
  | idle => exact absurd h (by simp only [serverStep, hpoint, reduceCtorEq, not_false_eq_true])
  | blocked => exact absurd h (by simp only [serverStep, hpoint, reduceCtorEq, not_false_eq_true])
  | verifying r peer =>
      rcases hverify : blockchainVerify host (s.heap peer) with code | verdict
      · simp only [serverStep, hpoint, hverify, Option.some.injEq] at h
        rw [← h]
        exact fun _ hr => absurd hr List.not_mem_nil
      · simp only [serverStep, hpoint, hverify, Option.some.injEq] at h
        rw [← h]
        exact fun _ hr => hr
  | declined peer =>
      simp only [serverStep, hpoint, Option.some.injEq] at h
      rw [← h]
      exact fun _ hr => absurd hr List.not_mem_nil
  | deciding r peer isValid =>
      rw [← hpoint]
      refine hnone ?_
      by_cases hlock : r.lock = 0
      swap
      · simp only [serverStep, hpoint, ne_eq, hlock, not_false_eq_true, if_true,
          Option.some.injEq] at h
        rw [← h]
        rfl
      rcases hswitches : s.switches with _ | _
      · rw [serverStep_declines host s r peer isValid hpoint hlock hswitches,
          Option.some.injEq] at h
        rw [← h]
        simp only [unlockedPoint]
        split
        · rfl
        · rfl
      · rw [serverStep_switches host s r peer isValid hpoint hlock hswitches,
          Option.some.injEq] at h
        rw [← h]
        rfl

/-- A step of the atomic threads can be taken with the mutex. -/
theorem Outside.step {s s' : Threads} {t : LockedThreads} (h : Outside s t) (a : ThreadAction)
    (hunlocks : Unlocks a) (hstep : threadStep host args s a = some s') :
    ∃ actions t', Run.run (lockedStep host args) t actions = some t' ∧
      Run.Meets (lockedStep host args) (fun u b => Unlocks b ∧ KeepsOffer u b) t actions ∧
      Outside s' t' := by
  rcases h with ⟨rfl, hpending⟩
  have hkeeps : ∀ b, KeepsOffer ⟨s, none, false⟩ b := fun b ours block hpoint =>
    absurd (LockPoint.offering_of hpoint) Bool.false_ne_true
  -- Most steps are one step of the threads with the mutex.
  have hone : lockedStep host args ⟨s, none, false⟩ a = some ⟨s', none, false⟩ →
      (∀ r ∈ s'.server.pending, r.unlock = 0) → ∃ actions t',
        Run.run (lockedStep host args) ⟨s, none, false⟩ actions = some t' ∧
        Run.Meets (lockedStep host args) (fun u b => Unlocks b ∧ KeepsOffer u b)
          ⟨s, none, false⟩ actions ∧ Outside s' t' := by
    intro hlocked hrequests
    exact ⟨[a], _, (Run.run_cons _ _ _ _).mpr ⟨_, hlocked, rfl⟩,
      Run.meets_cons ⟨hunlocks, hkeeps a⟩ hlocked trivial, rfl, hrequests⟩
  cases a with
  | mine shouldStop m =>
      have hserver : s'.server = s.server := by
        rcases minerStep_frame host args s s' s shouldStop m rfl rfl rfl rfl (fun _ _ => rfl)
          hstep with ⟨_, hframe, _⟩
        rw [hframe]
      refine hone ?_ (hserver ▸ hpending)
      have hfree : (m.unlock != 0) = false := by
        rw [show m.unlock = 0 from hunlocks]
        rfl
      have hmine : minerStep host args s shouldStop m = some s' := hstep
      simp only [lockedStep, lockedMinerStep, Bool.false_eq_true, if_false, hmine,
        Option.map_some, hfree, ite_self]
  | accept r =>
      have haccept : serverAccept host s r = some s' := hstep
      refine hone (by simp only [lockedStep, haccept, Option.map_some]) ?_
      intro r' hr'
      rw [serverAccept_pending host haccept r' hr']
      exact hunlocks
  | serve =>
      have hserve : serverStep host s = some s' := hstep
      have hrequests : ∀ r ∈ s'.server.pending, r.unlock = 0 :=
        fun r hr => hpending r (serverStep_pending host hserve r hr)
      cases hpoint : s.server with
      | deciding r peer isValid =>
          by_cases hlock : r.lock = 0
          · have hunlock := hpending r (by rw [hpoint]; exact List.mem_cons_self)
            -- Nothing comes between lock and unlock.
            rcases deciding_locked host args s r peer isValid hpoint hlock hunlock s' hserve with
              ⟨k, hrun⟩
            refine ⟨_, _, hrun, Run.meets_of_mem _ _ ?_, rfl, hrequests⟩
            intro b hb u
            rw [List.eq_of_mem_replicate hb]
            exact ⟨trivial, fun _ _ _ _ _ _ hserve' => by simp only [reduceCtorEq] at hserve'⟩
          · refine hone ?_ hrequests
            simp only [serverStep, hpoint, ne_eq, hlock, not_false_eq_true, if_true] at hserve
            simp only [lockedStep, lockedServerStep, hpoint, ne_eq, hlock, not_false_eq_true,
              if_true, Option.some.inj hserve]
      | _ =>
          refine hone ?_ hrequests
          simp only [lockedStep, lockedServerStep, hpoint, hserve, Option.map_some]

/-- The threads with the mutex and the threads whose server decides in one step
    come to the same, if the mutex can always be unlocked and no block is appended
    to the published chain between the comparison and the switch. -/
theorem locked_iff_atomic (blockchain : Blockchain) (version : UInt64) (t : Threads) :
    (∃ actions u, Run.Meets (lockedStep host args) (fun s a => Unlocks a ∧ KeepsOffer s a)
        (.startup blockchain version) actions ∧
      Run.run (lockedStep host args) (.startup blockchain version) actions =
        some ⟨u, none, false⟩ ∧ Alike u t) ↔
    ∃ actions u, Run.Meets (threadStep host args) (fun _ a => Unlocks a)
        (.startup blockchain version) actions ∧
      Run.run (threadStep host args) (.startup blockchain version) actions = some u ∧
        Alike u t := by
  constructor
  · rintro ⟨actions, u, hmeets, hrun, halike⟩
    rcases Run.run_simulates Follows (fun _ a => Unlocks a) (fun s a s' t hfollows hC hstep => by
        rcases hfollows.step host args a hC.2 hstep with hsame | ⟨t', ht', hfollows'⟩
        · exact ⟨[], t, rfl, trivial, hsame⟩
        · exact ⟨[a], t', (Run.run_cons _ _ _ _).mpr ⟨t', ht', rfl⟩,
            Run.meets_cons hC.1 ht' trivial, hfollows'⟩)
      _ actions _ _ (follows_startup blockchain version) hmeets hrun with
      ⟨actions', t', hrun', hmeets', hfollows⟩
    exact ⟨actions', t', hmeets', hrun', hfollows.alike.trans halike⟩
  · rintro ⟨actions, u, hmeets, hrun, halike⟩
    rcases Run.run_simulates Outside (fun s a => Unlocks a ∧ KeepsOffer s a)
      (fun s a s' t houtside hunlocks hstep => houtside.step host args a hunlocks hstep)
      _ actions _ (.startup blockchain version)
      ⟨rfl, fun _ hr => absurd hr List.not_mem_nil⟩ hmeets hrun with
      ⟨actions', t', hrun', hmeets', rfl, _⟩
    exact ⟨actions', u, hmeets', hrun', halike⟩

end Locking

end LeoCoin
