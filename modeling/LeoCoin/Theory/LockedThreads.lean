import LeoCoin.Core.LockedThreads
import LeoCoin.Theory.Ownership

/-!
# Locked Threads

What the steps of the two threads with the mutex are for the threads whose server
decides in one step.

A switch takes effect when the version is counted, because the pointer cannot be
read before the unlock and the version can be loaded any time. A decision not to
switch takes effect when the published chain is encoded. So `atomic` undoes the
switch as long as it is not counted, and does the rest of it at once after that.
The miner may destroy a chain in between, so the order of destruction may change.

Every step is then none or a step of the atomic threads, except for the switch: if
the miner has appended a block since the comparison, the peer's chain is not
longer any more. One block is the most that can happen, as the miner cannot begin
a new search without the lock.

## Main definitions

* `LockedThreads.atomic`: The threads if the server decides in one step.
* `Alike`: The same but for the order of destruction.
* `Offer`, `Decided`: What the server has found out.
* `InOrder`: What holds of the server inside.
* `Switches`: The switch.

## Theorems

* `minerStep_frame`, `threadStep_destroyed`: What does not matter to a step.
* `serverStep_switches`, `serverStep_declines`: The decision.
* `lockedMinerStep_cases`, `minerStep_searching`: A lock is needed for a search.
* `Offer.minerStep`: The peer's chain stays long enough.
* `insideStep_keeps`, `InOrder.step`: What a step is.
* `InOrder.accounted`: Every step keeps account of the chains.
* `offer_run`: The way to the decision to switch.
-/

namespace LeoCoin

/-- The published chain, if the switch is made when the version is counted. -/
def publishedAt (syncBlockchain : Nat) : Option LockPoint → Nat
  | some (.counting ourBlockchain) => ourBlockchain
  | _ => syncBlockchain

/-- The chain that is destroyed by then, and has yet to be. -/
def releasedAt : Option LockPoint → List Nat
  | some (.releasing ourBlockchain) => [ourBlockchain]
  | _ => []

/-- Where the server is, if what it decides takes effect when the version is
    counted, or else when the published chain is encoded. -/
def serverAt (server : ServerPoint) : Option LockPoint → ServerPoint
  | some (.releasing _) | some (.encoding true) => .idle
  | some (.unlocking switchedToPeerChain encoded) =>
    match server with
    | .deciding r peerBlockchain _ => unlockedPoint r peerBlockchain switchedToPeerChain encoded
    | point => point
  | _ => server

/-- The threads as they are if the server decides in one step. -/
def LockedThreads.atomic (s : LockedThreads) : Threads :=
  { s.threads with
    syncBlockchain := publishedAt s.threads.syncBlockchain s.inside
    destroyed := releasedAt s.inside ++ s.threads.destroyed
    server := serverAt s.threads.server s.inside }

/-- The same threads, but for the order in which the chains were destroyed. -/
structure Alike (t u : Threads) : Prop where
  same : u = { t with destroyed := u.destroyed }
  destroyed : u.destroyed.Perm t.destroyed

theorem Alike.refl (t : Threads) : Alike t t := ⟨rfl, List.Perm.refl _⟩

theorem Alike.symm {t u : Threads} (h : Alike t u) : Alike u t := by
  refine ⟨?_, h.destroyed.symm⟩
  rw [h.same]

theorem Alike.trans {t u v : Threads} (h1 : Alike t u) (h2 : Alike u v) : Alike t v := by
  refine ⟨?_, h2.destroyed.trans h1.destroyed⟩
  rw [h2.same, h1.same]

section Frames

variable (host : Host) (args : MineBlocksArgs)

/-- With the same chains and numbers the miner advances in the same way. The
    published chain matters to it only when it locks. -/
theorem minerAdvance_congr (s t : Threads) (shouldStop : Bool) (m : MiningConditions)
    (point : MinerPoint) (hheap : t.heap = s.heap) (hversion : t.syncVersion = s.syncVersion)
    (hmined : t.syncVersionCurrentlyMined = s.syncVersionCurrentlyMined)
    (hlocks : point.locks = true → m.lock = 0 → t.syncBlockchain = s.syncBlockchain) :
    minerAdvance host args t shouldStop m point = minerAdvance host args s shouldStop m point := by
  cases point with
  | start | reread | lookUp =>
      by_cases hlock : m.lock = 0
      · simp only [minerAdvance, lockedRead, hlocks rfl hlock]
      · simp only [minerAdvance, lockedRead, if_pos hlock]
  | _ => simp only [minerAdvance, hheap, hversion, hmined]

/-- A step of the miner writes to a chain, stores its number, releases a chain and
    moves on, and does the same in any state that looks the same to it. -/
theorem minerStep_frame (s s' t : Threads) (shouldStop : Bool) (m : MiningConditions)
    (hheap : t.heap = s.heap) (hversion : t.syncVersion = s.syncVersion)
    (hmined : t.syncVersionCurrentlyMined = s.syncVersionCurrentlyMined)
    (hminer : t.miner = s.miner)
    (hlocks : s.miner.locks = true → m.lock = 0 → t.syncBlockchain = s.syncBlockchain)
    (h : minerStep host args s shouldStop m = some s') :
    ∃ released, s' = { s with
        heap := s'.heap
        syncVersionCurrentlyMined := s'.syncVersionCurrentlyMined
        destroyed := released ++ s.destroyed
        miner := s'.miner } ∧
      minerStep host args t shouldStop m = some { t with
        heap := s'.heap
        syncVersionCurrentlyMined := s'.syncVersionCurrentlyMined
        destroyed := released ++ t.destroyed
        miner := s'.miner } := by
  have hadvance := minerAdvance_congr host args s t shouldStop m s.miner hheap hversion hmined
    hlocks
  unfold minerStep at h ⊢
  rw [hminer]
  cases hpoint : s.miner with
  -- The only step that releases a chain.
  | destroyOld old c =>
      simp only [hpoint, Option.some.injEq] at h
      exact ⟨[old], by rw [← h]; rfl, by rw [← h, ← hheap, ← hmined]; rfl⟩
  | storeMined c version =>
      simp only [hpoint, Option.some.injEq] at h
      exact ⟨[], by rw [← h]; rfl, by rw [← h, ← hheap]; rfl⟩
  -- The chain that grows is the one that is read here.
  | append c block =>
      simp only [hpoint] at h
      simp only [hheap]
      rcases hadd : blockchainAddBlock m.alloc 4 (s.heap c) block with code | longer
      · simp only [hadd, Option.some.injEq] at h
        exact ⟨[], by rw [← h]; rfl, by rw [← h, ← hheap, ← hmined]; rfl⟩
      · simp only [hadd, Option.some.injEq] at h
        exact ⟨[], by rw [← h]; rfl, by rw [← h, ← hmined]; rfl⟩
  | _ =>
      simp only [hpoint, Option.map_eq_some_iff] at h
      rcases h with ⟨next, hnext, hs'⟩
      rw [hpoint] at hadvance
      refine ⟨[], by rw [← hs']; rfl, ?_⟩
      simp only [hadvance, hnext, Option.map_some, Option.some.injEq]
      rw [← hs', ← hheap, ← hmined]
      rfl

/-- What was destroyed does not matter when a request is received. -/
theorem serverAccept_destroyed (s s' : Threads) (r : Request)
    (h : serverAccept host s r = some s') (destroyed : List Nat) :
    s'.destroyed = s.destroyed ∧ serverAccept host { s with destroyed := destroyed } r =
      some { s' with destroyed := destroyed } := by
  unfold serverAccept at h ⊢
  split at h
  · rename_i hidle hrecv
    rw [← Option.some.inj h]
    simp only [hidle, hrecv, and_self]
  · rename_i hidle hrecv
    rw [← Option.some.inj h]
    simp only [hidle, hrecv, and_self]
  · rename_i hidle hrecv
    rw [← Option.some.inj h]
    simp only [hidle, hrecv, and_self]
  · exact absurd h (by simp only [reduceCtorEq, not_false_eq_true])

/-- The server decides to switch. -/
theorem serverStep_switches (s : Threads) (r : Request) (peer : Nat) (isValid : Bool)
    (hpoint : s.server = .deciding r peer isValid) (hlock : r.lock = 0)
    (hswitches : s.switches = true) :
    serverStep host s = some { s.switchTo peer with server := .idle } := by
  unfold serverStep
  simp only [hpoint, hlock, hswitches, ne_eq, not_true_eq_false, if_false, if_true, or_true]
  split
  · rfl
  · rfl

/-- The server decides not to switch. -/
theorem serverStep_declines (s : Threads) (r : Request) (peer : Nat) (isValid : Bool)
    (hpoint : s.server = .deciding r peer isValid) (hlock : r.lock = 0)
    (hswitches : s.switches = false) :
    serverStep host s = some { s with
      server := unlockedPoint r peer false (blockchainSerialize host.byteOrder (r.memory .encode) 0
        (s.heap s.syncBlockchain)).isOk } := by
  unfold serverStep unlockedPoint
  simp only [hpoint, hlock, hswitches, ne_eq, not_true_eq_false, if_false, Bool.false_eq_true,
    or_false, and_true]
  rcases blockchainSerialize host.byteOrder (r.memory .encode) 0 (s.heap s.syncBlockchain) with
    code | buffer
  · rfl
  · by_cases hunlock : r.unlock = 0
    · simp only [hunlock, not_true_eq_false, if_false, Except.isOk, Except.toBool, and_self,
        if_true]
    · simp only [hunlock, not_false_eq_true, if_true, and_false, if_false]

/-- Nor does it to what the server does then. -/
theorem serverStep_destroyed (s s' : Threads) (h : serverStep host s = some s')
    (destroyed : List Nat) :
    ∃ released, s'.destroyed = released ++ s.destroyed ∧
      serverStep host { s with destroyed := destroyed } =
        some { s' with destroyed := released ++ destroyed } := by
  cases hpoint : s.server with
  | idle => exact absurd h (by simp only [serverStep, hpoint, reduceCtorEq, not_false_eq_true])
  | blocked => exact absurd h (by simp only [serverStep, hpoint, reduceCtorEq, not_false_eq_true])
  | verifying r peer =>
      rcases hverify : blockchainVerify host (s.heap peer) with code | verdict
      · simp only [serverStep, hpoint, hverify, Option.some.injEq] at h ⊢
        rw [← h]
        exact ⟨[], rfl, rfl⟩
      · simp only [serverStep, hpoint, hverify, Option.some.injEq] at h ⊢
        rw [← h]
        exact ⟨[], rfl, rfl⟩
  | declined peer =>
      simp only [serverStep, hpoint, Option.some.injEq] at h ⊢
      rw [← h]
      exact ⟨[peer], rfl, rfl⟩
  | deciding r peer isValid =>
      -- Without the lock nothing is released.
      by_cases hlock : r.lock = 0
      swap
      · simp only [serverStep, hpoint, ne_eq, hlock, not_false_eq_true, if_true,
          Option.some.injEq] at h ⊢
        rw [← h]
        exact ⟨[], rfl, rfl⟩
      rcases hswitches : s.switches with _ | _
      · rw [serverStep_declines host s r peer isValid hpoint hlock hswitches,
          Option.some.injEq] at h
        rw [← h]
        exact ⟨[], rfl, hpoint ▸ serverStep_declines host { s with destroyed := destroyed } r peer
          isValid hpoint hlock hswitches⟩
      · rw [serverStep_switches host s r peer isValid hpoint hlock hswitches,
          Option.some.injEq] at h
        rw [← h]
        exact ⟨[s.syncBlockchain], rfl, hpoint ▸ serverStep_switches host
          { s with destroyed := destroyed } r peer isValid hpoint hlock hswitches⟩

/-- What was destroyed does not matter to a step. -/
theorem threadStep_destroyed (s s' : Threads) (a : ThreadAction)
    (h : threadStep host args s a = some s') (destroyed : List Nat) :
    ∃ released, s'.destroyed = released ++ s.destroyed ∧
      threadStep host args { s with destroyed := destroyed } a =
        some { s' with destroyed := released ++ destroyed } := by
  cases a with
  | mine shouldStop m =>
      rcases minerStep_frame host args s s' { s with destroyed := destroyed } shouldStop m rfl rfl
        rfl rfl (fun _ _ => rfl) h with ⟨released, hs', ht⟩
      refine ⟨released, by rw [hs'], ht.trans ?_⟩
      rw [hs']
  | accept r => exact ⟨[], serverAccept_destroyed host s s' r h destroyed⟩
  | serve => exact serverStep_destroyed host s s' h destroyed

/-- Threads that are alike take the same steps. -/
theorem Alike.step {t u t' : Threads} (h : Alike t u) (a : ThreadAction)
    (hstep : threadStep host args t a = some t') :
    ∃ u', threadStep host args u a = some u' ∧ Alike t' u' := by
  rcases threadStep_destroyed host args t t' a hstep u.destroyed with ⟨released, ht', hu⟩
  rw [← h.same] at hu
  -- What the step releases is put before both lists.
  refine ⟨_, hu, rfl, ?_⟩
  rw [ht']
  exact h.destroyed.append_left released

end Frames

/-- The miner is between its read of the published chain and its append. -/
def MinerPoint.searching : MinerPoint → Bool
  | .nonceTest _ | .nonceLoadMined _ | .nonceLoadVersion _ _ | .tryNonce _ | .append _ _ => true
  | _ => false

/-- The peer's chain is no shorter than the published one, and it is longer as
    long as the miner may append a block. -/
structure Offer (heap : Nat → Blockchain) (miner : MinerPoint) (ours peer : Nat) : Prop where
  difficulty : (heap ours).numLeadingZeroBytesRequiredInBlockHash =
    (heap peer).numLeadingZeroBytesRequiredInBlockHash
  length : (heap ours).blockList.length ≤ (heap peer).blockList.length
  searching : miner.searching = true → (heap ours).blockList.length < (heap peer).blockList.length

/-- What the server has found out about the peer's chain. -/
def Decided (s : Threads) (peer : Nat) (isValid : Bool) : LockPoint → Prop
  | .publishing ours =>
    isValid = true ∧ s.syncBlockchain = ours ∧ Offer s.heap s.miner ours peer
  | .counting ours =>
    isValid = true ∧ s.syncBlockchain = peer ∧ Offer s.heap s.miner ours peer
  | .encoding false =>
    switchesToPeerBlockchain (s.heap s.syncBlockchain) (s.heap peer) isValid = false
  | _ => True

/-- Inside, the server holds the mutex, has a request that it decides on, and has
    found out what it acts on. -/
structure InOrder (s : LockedThreads) : Prop where
  held : ∀ point, s.inside = some point → s.held = true
  deciding : ∀ point, s.inside = some point → ∃ r peer isValid,
    s.threads.server = .deciding r peer isValid ∧ r.lock = 0 ∧
      Decided s.threads peer isValid point

theorem inOrder_startup (blockchain : Blockchain) (version : UInt64) :
    InOrder (.startup blockchain version) where
  held _ h := absurd h (by simp only [LockedThreads.startup, reduceCtorEq, not_false_eq_true])
  deciding _ h := absurd h (by simp only [LockedThreads.startup, reduceCtorEq, not_false_eq_true])

/-- Outside, the server has nothing to keep in order. -/
theorem InOrder.outside {s : LockedThreads} (h : s.inside = none) : InOrder s where
  held _ hpoint := absurd (h.symm.trans hpoint) (by simp only [reduceCtorEq, not_false_eq_true])
  deciding _ hpoint := absurd (h.symm.trans hpoint) (by simp only [reduceCtorEq, not_false_eq_true])

/-- The miner does not point to the chain that the server decides on. -/
theorem Accounted.apart {s : Threads} (h : Accounted s) {peer : Nat}
    (hpeer : peer ∈ s.server.blockchains) : peer ∉ s.miner.blockchains := by
  intro hmem
  rcases h.server peer hpeer with ⟨_, hpublished, hdead⟩
  exact (h.miner peer hmem).elim hpublished hdead

section Miner

variable (host : Host) (args : MineBlocksArgs)

/-- A step of the miner that locks needs the mutex, and no step gives back a mutex
    that was held before. -/
theorem lockedMinerStep_cases (s s' : LockedThreads) (shouldStop : Bool) (m : MiningConditions)
    (h : lockedMinerStep host args s shouldStop m = some s') :
    ∃ threads, minerStep host args s.threads shouldStop m = some threads ∧
      s' = { s with
        threads := threads
        held := s'.held } ∧
      (s.threads.miner.locks = true → m.lock = 0 → s.held = false) ∧
      (s.held = true → s'.held = true) := by
  unfold lockedMinerStep at h
  split at h
  -- The miner waits for a mutex that is held.
  · by_cases hheld : s.held = true
    · rw [if_pos hheld] at h
      exact absurd h (by simp only [reduceCtorEq, not_false_eq_true])
    · rw [if_neg hheld, Option.map_eq_some_iff] at h
      rcases h with ⟨threads, hstep, rfl⟩
      exact ⟨threads, hstep, rfl, fun _ _ => Bool.eq_false_of_not_eq_true hheld,
        fun h => absurd h hheld⟩
  · rename_i hlocks
    rw [Option.map_eq_some_iff] at h
    rcases h with ⟨threads, hstep, rfl⟩
    exact ⟨threads, hstep, rfl, fun h1 h2 => absurd ⟨h1, h2⟩ hlocks, fun h => h⟩

/-- Neither the server nor what is published, but for a block at the end of the
    chain, is different after a step of the miner. -/
structure LeavesServer (s s' : LockedThreads) : Prop where
  inside : s'.inside = s.inside
  server : s'.threads.server = s.threads.server
  syncBlockchain : s'.threads.syncBlockchain = s.threads.syncBlockchain
  syncVersion : s'.threads.syncVersion = s.threads.syncVersion

theorem lockedMinerStep_leavesServer {s s' : LockedThreads} {shouldStop : Bool}
    {m : MiningConditions} (h : lockedMinerStep host args s shouldStop m = some s') :
    minerStep host args s.threads shouldStop m = some s'.threads ∧ LeavesServer s s' := by
  rcases lockedMinerStep_cases host args s s' shouldStop m h with ⟨threads, hthreads, hs', _⟩
  rcases minerStep_frame host args s.threads threads s.threads shouldStop m rfl rfl rfl rfl
    (fun _ _ => rfl) hthreads with ⟨_, hframe, _⟩
  have hthreads' : s'.threads = threads := by rw [hs']
  rw [hthreads']
  refine ⟨hthreads, by rw [hs'], ?_, ?_, ?_⟩
  · rw [hthreads', hframe]
  · rw [hthreads', hframe]
  · rw [hthreads', hframe]

/-- Without a lock the miner does not begin a search. -/
theorem minerStep_searching (s s' : Threads) (shouldStop : Bool) (m : MiningConditions)
    (h : minerStep host args s shouldStop m = some s')
    (hlocks : s.miner.locks = true → m.lock ≠ 0) (hsearching : s'.miner.searching = true) :
    s.miner.searching = true := by
  rcases minerStep_cases host args s s' shouldStop m h with
    ⟨next, hmove, rfl⟩ | ⟨old, c, hpoint, rfl⟩ | ⟨c, version, hpoint, rfl⟩ |
      ⟨c, block, hpoint, _⟩
  · generalize hpoint : s.miner = point at hmove
    cases hmove with
    | looksUp c block =>
        -- The lock fails, and the miner ends.
        have hlock := hlocks (by rw [hpoint]; rfl)
        simp only [minerStep, hpoint, minerAdvance, lockedRead, if_pos hlock, Option.map_some,
          Option.some.injEq, Threads.mk.injEq, reduceCtorEq, and_false, false_and] at h
    | stops | tries | loadsMinedAgain | overtaken | current | finds | misses => rfl
    | _ => exact absurd hsearching (by simp only [MinerPoint.searching, Bool.false_eq_true,
        not_false_eq_true])
  · exact absurd hsearching (by simp only [MinerPoint.searching, Bool.false_eq_true,
      not_false_eq_true])
  · exact absurd hsearching (by simp only [MinerPoint.searching, Bool.false_eq_true,
      not_false_eq_true])
  · rw [hpoint]
    rfl

/-- The miner leaves the chains as they are, or it appends and searches no
    longer. -/
theorem minerStep_heap (s s' : Threads) (shouldStop : Bool) (m : MiningConditions)
    (h : minerStep host args s shouldStop m = some s') :
    s'.heap = s.heap ∨ ∃ c block, s.miner = .append c block ∧ s'.miner = .report c ∧
      s'.heap = Function.update s.heap c { s.heap c with
        blockList := (s.heap c).blockList ++ [block] } := by
  rcases minerStep_cases host args s s' shouldStop m h with
    ⟨next, _, rfl⟩ | ⟨old, c, _, rfl⟩ | ⟨c, version, _, rfl⟩ | ⟨c, block, hpoint, ⟨code, rfl⟩ | rfl⟩
  · exact Or.inl rfl
  · exact Or.inl rfl
  · exact Or.inl rfl
  · exact Or.inl rfl
  · exact Or.inr ⟨c, block, hpoint, rfl, rfl⟩

/-- The miner does not write to a chain that it does not point to. -/
theorem minerStep_apart (s s' : Threads) (shouldStop : Bool) (m : MiningConditions)
    (h : minerStep host args s shouldStop m = some s') {c : Nat}
    (hapart : c ∉ s.miner.blockchains) : s'.heap c = s.heap c := by
  rcases minerStep_heap host args s s' shouldStop m h with hheap | ⟨d, block, hpoint, _, hheap⟩
  · rw [hheap]
  rw [hheap, Function.update_of_ne]
  rintro rfl
  rw [hpoint] at hapart
  exact hapart List.mem_cons_self

/-- What the peer offers stays good enough, as the miner appends one block at
    most. -/
theorem Offer.minerStep {s s' : Threads} {ours peer : Nat} (h : Offer s.heap s.miner ours peer)
    (hapart : peer ∉ s.miner.blockchains) (shouldStop : Bool) (m : MiningConditions)
    (hstep : minerStep host args s shouldStop m = some s')
    (hlocks : s.miner.locks = true → m.lock ≠ 0) : Offer s'.heap s'.miner ours peer := by
  have hsearching := minerStep_searching host args s s' shouldStop m hstep hlocks
  have hpeer := minerStep_apart host args s s' shouldStop m hstep hapart
  rcases minerStep_heap host args s s' shouldStop m hstep with
    hheap | ⟨c, block, hpoint, hreport, hheap⟩
  · rw [hheap]
    exact ⟨h.difficulty, h.length, fun hs => h.searching (hsearching hs)⟩
  -- After the append the miner must lock before it searches again.
  rw [hreport]
  refine ⟨?_, ?_, fun hs => absurd hs (by simp only [MinerPoint.searching, Bool.false_eq_true,
    not_false_eq_true])⟩
  · rw [hpeer, hheap]
    by_cases hc : ours = c
    · rw [hc, Function.update_self, ← hc]
      exact h.difficulty
    · rw [Function.update_of_ne hc]
      exact h.difficulty
  · rw [hpeer, hheap]
    by_cases hc : ours = c
    · rw [hc, Function.update_self, List.length_append, ← hc]
      -- Before the append the peer's chain was longer by a block at least.
      exact h.searching (by rw [hpoint]; rfl)
    · rw [Function.update_of_ne hc]
      exact h.length

/-- What the server has declined it would decline later, as chains get longer
    only. -/
theorem declines_minerStep {s s' : Threads} {ours peer : Nat} {isValid : Bool}
    (h : switchesToPeerBlockchain (s.heap ours) (s.heap peer) isValid = false)
    (hapart : peer ∉ s.miner.blockchains) (shouldStop : Bool) (m : MiningConditions)
    (hstep : minerStep host args s shouldStop m = some s') :
    switchesToPeerBlockchain (s'.heap ours) (s'.heap peer) isValid = false := by
  rw [minerStep_apart host args s s' shouldStop m hstep hapart]
  rcases minerStep_heap host args s s' shouldStop m hstep with hheap | ⟨c, block, _, _, hheap⟩
  · rw [hheap]
    exact h
  rw [hheap]
  -- Only a block at the end of the published chain could matter.
  by_cases hc : ours = c
  swap
  · rw [Function.update_of_ne hc]
    exact h
  rw [hc, Function.update_self]
  rw [hc] at h
  refine Bool.eq_false_of_not_eq_true fun hswitch => ?_
  -- What is longer than the longer chain was longer than the shorter one.
  rcases (switchesToPeerBlockchain_iff _ _ _).mp hswitch with ⟨hvalid, hlonger, hsame⟩
  rw [List.length_append] at hlonger
  have hbefore : switchesToPeerBlockchain (s.heap c) (s.heap peer) isValid = true :=
    (switchesToPeerBlockchain_iff _ _ _).mpr
      ⟨hvalid, Nat.lt_of_le_of_lt (Nat.le_add_right _ _) hlonger, hsame⟩
  exact absurd hbefore (Bool.eq_false_iff.mp h)

/-- What the server has found out stays right while the miner takes a step. -/
theorem decided_minerStep {s s' : Threads} {r : Request} {peer : Nat} {isValid : Bool}
    {point : LockPoint} (h : Decided s peer isValid point) (shouldStop : Bool)
    (m : MiningConditions) (hstep : minerStep host args s shouldStop m = some s')
    (hpublished : s'.syncBlockchain = s.syncBlockchain)
    (hapart : peer ∈ (serverAt (.deciding r peer isValid) (some point)).blockchains →
      peer ∉ s.miner.blockchains)
    (hlocks : s.miner.locks = true → m.lock ≠ 0) : Decided s' peer isValid point := by
  cases point with
  -- The peer's chain is the server's alone here.
  | publishing ours | counting ours =>
      have hpeer := hapart List.mem_cons_self
      exact ⟨h.1, hpublished.trans h.2.1, h.2.2.minerStep host args hpeer shouldStop m hstep hlocks⟩
  | encoding switched =>
      cases switched with
      | false =>
          have hpeer := hapart List.mem_cons_self
          rw [Decided, hpublished]
          exact declines_minerStep host args h hpeer shouldStop m hstep
      | true => trivial
  | comparing | releasing ours | unlocking switched encoded => trivial

/-- A step of the miner is one of the atomic threads, and it leaves the server in
    order. -/
theorem InOrder.minerStep {s s' : LockedThreads} (h : InOrder s) (haccounted : Accounted s.atomic)
    (shouldStop : Bool) (m : MiningConditions)
    (hstep : lockedMinerStep host args s shouldStop m = some s') :
    InOrder s' ∧ ∃ t, threadStep host args s.atomic (.mine shouldStop m) = some t ∧
      Alike t s'.atomic := by
  rcases lockedMinerStep_cases host args s s' shouldStop m hstep with
    ⟨threads, hthreads, hs', hlocks, hheld⟩
  -- While the server is inside, a lock of the miner fails.
  have hfree : ∀ point, s.inside = some point → s.threads.miner.locks = true → m.lock ≠ 0 := by
    intro point hpoint h1 h2
    have hfalse := hlocks h1 h2
    rw [h.held point hpoint] at hfalse
    exact absurd hfalse (by simp only [Bool.true_eq_false, not_false_eq_true])
  -- So the miner reads the pointer only where no switch is under way.
  have hpublished : s.threads.miner.locks = true → m.lock = 0 →
      s.atomic.syncBlockchain = s.threads.syncBlockchain := by
    intro h1 h2
    cases hinside : s.inside with
    | none => simp only [LockedThreads.atomic, hinside, publishedAt]
    | some point => exact absurd (hfree point hinside h1) (not_not_intro h2)
  rcases minerStep_frame host args s.threads threads s.atomic shouldStop m rfl rfl rfl rfl
    hpublished hthreads with ⟨released, hframe, hatomic⟩
  have hinside : s'.inside = s.inside := by rw [hs']
  have hserver : s'.threads.server = s.threads.server := by rw [hs', hframe]
  refine ⟨⟨fun point hpoint => hheld (h.held point (hinside ▸ hpoint)), ?_⟩, _, hatomic, ?_⟩
  · intro point hpoint
    rw [hinside] at hpoint
    rcases h.deciding point hpoint with ⟨r, peer, isValid, hdeciding, hlock, hdecided⟩
    refine ⟨r, peer, isValid, hserver.trans hdeciding, hlock, ?_⟩
    have hthreads' : s'.threads = threads := by rw [hs']
    rw [hthreads']
    refine decided_minerStep host args (r := r) hdecided shouldStop m hthreads (by rw [hframe]) ?_
      (hfree point hpoint)
    intro hpeer
    exact haccounted.apart (by rw [LockedThreads.atomic, hpoint, hdeciding]; exact hpeer)
  · rcases threads with ⟨heap, fresh, published, version, mined, destroyed, miner, server⟩
    rw [Threads.mk.injEq] at hframe
    rcases hframe with ⟨-, rfl, rfl, rfl, -, rfl, -, rfl⟩
    rw [hs']
    exact ⟨rfl, List.perm_append_comm_assoc _ _ _⟩

end Miner

/-- Outside, the threads are what they are. -/
theorem atomic_outside {s : LockedThreads} (h : s.inside = none) : s.atomic = s.threads := by
  simp only [LockedThreads.atomic, h, publishedAt, releasedAt, serverAt, List.nil_append]

/-- The server has compared the lengths and is about to switch. -/
def LockPoint.offering : Option LockPoint → Bool
  | some (.publishing _) | some (.counting _) => true
  | _ => false

theorem LockPoint.offering_of {inside : Option LockPoint} {ours : Nat}
    (h : inside = some (.publishing ours) ∨ inside = some (.counting ours)) :
    LockPoint.offering inside = true := by
  rcases h with rfl | rfl
  · rfl
  · rfl

/-- Up to the switch, the server is the only one to name the peer's chain. -/
theorem offered_apart {s : LockedThreads} {ours peer : Nat} {r : Request} {isValid : Bool}
    (haccounted : Accounted s.atomic)
    (hpoint : s.inside = some (.publishing ours) ∨ s.inside = some (.counting ours))
    (hdeciding : s.threads.server = .deciding r peer isValid) :
    peer ∉ s.threads.miner.blockchains := by
  have hmem : peer ∈ s.atomic.server.blockchains := by
    rcases hpoint with hinside | hinside
    · rw [LockedThreads.atomic, hinside, hdeciding]
      exact List.mem_cons_self
    · rw [LockedThreads.atomic, hinside, hdeciding]
      exact List.mem_cons_self
  exact haccounted.apart hmem

/-- The switch, which takes effect when the version is counted. -/
def Switches (s s' : LockedThreads) : Prop :=
  ∃ r peer ours, s.inside = some (.counting ours) ∧ s.threads.server = .deciding r peer true ∧
    r.lock = 0 ∧ Offer s.threads.heap s.threads.miner ours peer ∧
    s'.atomic = { s.atomic.switchTo peer with server := .idle }

section Server

variable (host : Host)

/-- Outside, a step of the server is one of the atomic threads, or the server
    locks the mutex. -/
theorem lockedServerStep_outside {s s' : LockedThreads} (hinside : s.inside = none)
    (hstep : lockedServerStep host s = some s') :
    (s'.inside = none ∧ serverStep host s.threads = some s'.threads ∧
      s.threads.switches = false ∧ s'.held = s.held) ∨
      ∃ r peer isValid, s.threads.server = .deciding r peer isValid ∧ r.lock = 0 ∧
        s.held = false ∧ s' = { s with
          inside := some .comparing
          held := true } := by
  unfold lockedServerStep at hstep
  rw [hinside] at hstep
  cases hpoint : s.threads.server with
  | deciding r peer isValid =>
      simp only [hpoint] at hstep
      by_cases hlock : r.lock = 0
      swap
      · rw [if_pos hlock, Option.some.injEq] at hstep
        rw [← hstep]
        refine Or.inl ⟨rfl, ?_, ?_, rfl⟩
        · simp only [serverStep, hpoint, ne_eq, hlock, not_false_eq_true, if_true]
        · simp only [Threads.switches, hpoint, beq_eq_false_iff_ne.mpr hlock, Bool.false_and]
      -- With the lock, the server waits or goes inside.
      rw [if_neg (not_not_intro hlock)] at hstep
      by_cases hheld : s.held = true
      · rw [if_pos hheld] at hstep
        exact absurd hstep (by simp only [reduceCtorEq, not_false_eq_true])
      rw [if_neg hheld, Option.some.injEq] at hstep
      exact Or.inr ⟨r, peer, isValid, rfl, hlock, Bool.eq_false_of_not_eq_true hheld, hstep.symm⟩
  | _ =>
      simp only [hpoint, Option.map_eq_some_iff] at hstep
      rcases hstep with ⟨threads, hthreads, rfl⟩
      exact Or.inl ⟨rfl, hthreads, by simp only [Threads.switches, hpoint], rfl⟩

/-- Inside, the server does what the point says. -/
theorem lockedServerStep_inside {s s' : LockedThreads} {point : LockPoint} {r : Request}
    {peer : Nat} {isValid : Bool} (hinside : s.inside = some point)
    (hdeciding : s.threads.server = .deciding r peer isValid)
    (hstep : lockedServerStep host s = some s') :
    s' = insideStep host s r peer isValid point := by
  unfold lockedServerStep at hstep
  rw [hinside] at hstep
  simp only [hdeciding, Option.some.injEq] at hstep
  exact hstep.symm

/-- The server goes on to a point inside, where it acts on what it has found
    out. -/
theorem inOrder_inside {threads : Threads} {point : LockPoint} {r : Request} {peer : Nat}
    {isValid : Bool} (hdeciding : threads.server = .deciding r peer isValid) (hlock : r.lock = 0)
    (hdecided : Decided threads peer isValid point) : InOrder ⟨threads, some point, true⟩ where
  held _ _ := rfl
  deciding _ hpoint := ⟨r, peer, isValid, hdeciding, hlock, Option.some.inj hpoint ▸ hdecided⟩

/-- A step between lock and unlock is none or one of the atomic threads, apart
    from the switch, and it leaves the server in order. -/
theorem insideStep_keeps (threads : Threads) (point : LockPoint) (r : Request) (peer : Nat)
    (isValid : Bool) (hdeciding : threads.server = .deciding r peer isValid) (hlock : r.lock = 0)
    (hdecided : Decided threads peer isValid point) (s s' : LockedThreads)
    (hs : s = ⟨threads, some point, true⟩) (hs' : s' = insideStep host s r peer isValid point) :
    InOrder s' ∧ (s'.atomic = s.atomic ∨ serverStep host s.atomic = some s'.atomic ∨
      Switches s s') := by
  subst hs
  cases point with
  | comparing =>
      rw [insideStep] at hs'
      by_cases hswitch : switchesToPeerBlockchain (threads.heap threads.syncBlockchain)
          (threads.heap peer) isValid = true
      · rw [if_pos hswitch] at hs'
        subst hs'
        rcases (switchesToPeerBlockchain_iff _ _ _).mp hswitch with ⟨hvalid, hlonger, hsame⟩
        exact ⟨inOrder_inside hdeciding hlock
          ⟨hvalid, rfl, hsame, Nat.le_of_lt hlonger, fun _ => hlonger⟩, Or.inl rfl⟩
      · rw [if_neg hswitch] at hs'
        subst hs'
        exact ⟨inOrder_inside hdeciding hlock (Bool.eq_false_of_not_eq_true hswitch), Or.inl rfl⟩
  -- The new pointer is hidden until the version is counted.
  | publishing ours =>
      subst hs'
      rcases hdecided with ⟨hvalid, rfl, hoffer⟩
      exact ⟨inOrder_inside hdeciding hlock ⟨hvalid, rfl, hoffer⟩, Or.inl rfl⟩
  -- The version shows the switch.
  | counting ours =>
      subst hs'
      rcases hdecided with ⟨rfl, hpublished, hoffer⟩
      refine ⟨inOrder_inside hdeciding hlock trivial, Or.inr (Or.inr
        ⟨r, peer, ours, rfl, hdeciding, hlock, hoffer, ?_⟩)⟩
      rw [← hpublished]
      rfl
  | releasing ours =>
      subst hs'
      exact ⟨inOrder_inside hdeciding hlock trivial, Or.inl rfl⟩
  | encoding switched =>
      subst hs'
      cases switched with
      | true =>
          refine ⟨inOrder_inside hdeciding hlock trivial, Or.inl ?_⟩
          simp only [LockedThreads.atomic, insideStep, serverAt, hdeciding, unlockedPoint,
            Bool.true_eq_false, and_false, if_false]
          rfl
      | false =>
          refine ⟨inOrder_inside hdeciding hlock trivial, Or.inr (Or.inl ?_)⟩
          -- The atomic server decides here, on the chain that is encoded.
          have hdeclines : threads.switches = false := by
            simp only [Threads.switches, hdeciding, hlock, beq_self_eq_true, Bool.true_and]
            exact hdecided
          refine (serverStep_declines host threads r peer isValid hdeciding hlock
            hdeclines).trans ?_
          simp only [LockedThreads.atomic, insideStep, serverAt, hdeciding]
          rfl
  | unlocking switched encoded =>
      subst hs'
      refine ⟨.outside rfl, Or.inl ?_⟩
      simp only [LockedThreads.atomic, insideStep, serverAt, hdeciding]
      rfl

/-- A step of the server is none or one of the atomic threads, apart from the
    switch, and it leaves the server in order. -/
theorem InOrder.serverStep {s s' : LockedThreads} (h : InOrder s)
    (hstep : lockedServerStep host s = some s') :
    InOrder s' ∧ (s'.atomic = s.atomic ∨ LeoCoin.serverStep host s.atomic = some s'.atomic ∨
      Switches s s') := by
  cases hinside : s.inside with
  | none =>
      rcases lockedServerStep_outside host hinside hstep with
        ⟨houtside, hthreads, _⟩ | ⟨r, peer, isValid, hdeciding, hlock, _, rfl⟩
      · refine ⟨.outside houtside, Or.inr (Or.inl ?_)⟩
        rw [atomic_outside hinside, atomic_outside houtside]
        exact hthreads
      -- The lock is no step of the atomic threads.
      · refine ⟨inOrder_inside hdeciding hlock trivial, Or.inl ?_⟩
        rw [atomic_outside hinside]
        rfl
  | some point =>
      rcases h.deciding point hinside with ⟨r, peer, isValid, hdeciding, hlock, hdecided⟩
      refine insideStep_keeps host s.threads point r peer isValid hdeciding hlock hdecided s s' ?_
        (lockedServerStep_inside host hinside hdeciding hstep)
      rw [← hinside, ← h.held point hinside]

end Server

section Steps

variable (host : Host) (args : MineBlocksArgs)

theorem Accounted.alike {t u : Threads} (h : Accounted t) (halike : Alike t u) : Accounted u := by
  rw [halike.same]
  have hmem : ∀ c, c ∈ u.destroyed ↔ c ∈ t.destroyed := fun c => halike.destroyed.mem_iff
  refine ⟨h.published_lt, fun c hc => h.destroyed_lt c ((hmem c).mp hc), ?_, ?_⟩
  · intro c hc
    exact (h.miner c hc).imp id (hmem c).mpr
  · intro c hc
    rcases h.server c hc with ⟨hlt, hpublished, hdead⟩
    exact ⟨hlt, hpublished, fun hmem' => hdead ((hmem c).mp hmem')⟩

/-- A switch keeps account of the chains, whatever it was decided on. -/
theorem Accounted.switch {s : Threads} (h : Accounted s) {peer : Nat}
    (hpeer : peer ∈ s.server.blockchains) :
    Accounted { s.switchTo peer with server := .idle } where
  published_lt := (h.server peer hpeer).1
  destroyed_lt c hc := by
    rcases List.mem_cons.mp hc with rfl | hmem
    · exact h.published_lt
    · exact h.destroyed_lt c hmem
  miner c hc := by
    -- The miner's chains are destroyed now, if they were not before.
    rcases h.miner c hc with rfl | hmem
    · exact Or.inr List.mem_cons_self
    · exact Or.inr (List.mem_cons_of_mem _ hmem)
  server _ hc := absurd hc List.not_mem_nil

/-- The server receives outside only. -/
theorem InOrder.accepting {s : LockedThreads} (h : InOrder s) {r : Request} {threads : Threads}
    (haccept : serverAccept host s.threads r = some threads) : s.inside = none := by
  cases hpoint : s.inside with
  | none => rfl
  | some point =>
      rcases h.deciding point hpoint with ⟨_, _, _, hdeciding, _⟩
      simp only [serverAccept, hdeciding, reduceCtorEq] at haccept

/-- A step is none or one of the atomic threads, apart from the switch, and it
    leaves the server in order. -/
theorem InOrder.step {s s' : LockedThreads} (h : InOrder s) (haccounted : Accounted s.atomic)
    (a : ThreadAction) (hstep : lockedStep host args s a = some s') :
    InOrder s' ∧ ((s'.atomic = s.atomic ∧ a = .serve) ∨
      (∃ t, threadStep host args s.atomic a = some t ∧ Alike t s'.atomic) ∨
      (Switches s s' ∧ a = .serve)) := by
  cases a with
  | mine shouldStop m =>
      rcases h.minerStep host args haccounted shouldStop m hstep with ⟨horder, hmine⟩
      exact ⟨horder, Or.inr (Or.inl hmine)⟩
  | accept r =>
      rcases Option.map_eq_some_iff.mp hstep with ⟨threads, haccept, rfl⟩
      have hinside := h.accepting host haccept
      refine ⟨.outside hinside, Or.inr (Or.inl ⟨threads, ?_, ?_⟩)⟩
      · rw [atomic_outside hinside]
        exact haccept
      · rw [atomic_outside (s := { s with threads := threads }) hinside]
        exact .refl _
  | serve =>
      rcases h.serverStep host hstep with ⟨horder, hsame | hserve | hswitch⟩
      · exact ⟨horder, Or.inl ⟨hsame, rfl⟩⟩
      · exact ⟨horder, Or.inr (Or.inl ⟨_, hserve, .refl _⟩)⟩
      · exact ⟨horder, Or.inr (Or.inr ⟨hswitch, rfl⟩)⟩

/-- Every step keeps account of the chains. -/
theorem InOrder.accounted {s s' : LockedThreads} (h : InOrder s) (haccounted : Accounted s.atomic)
    (a : ThreadAction) (hstep : lockedStep host args s a = some s') : Accounted s'.atomic := by
  rcases (h.step host args haccounted a hstep).2 with
    ⟨hsame, _⟩ | ⟨t, ht, halike⟩ | ⟨⟨r, peer, ours, hinside, hdeciding, _, _, hs'⟩, _⟩
  · exact hsame ▸ haccounted
  · exact (haccounted.step host args a ht).alike halike
  · rw [hs']
    refine haccounted.switch ?_
    rw [LockedThreads.atomic, hinside, hdeciding]
    exact List.mem_cons_self

end Steps

section Locking

variable (host : Host) (args : MineBlocksArgs)

/-- The server takes a free mutex. -/
theorem lockedServerStep_lock (s : Threads) (r : Request) (peer : Nat) (isValid : Bool)
    (hdeciding : s.server = .deciding r peer isValid) (hlock : r.lock = 0) :
    lockedServerStep host ⟨s, none, false⟩ = some ⟨s, some .comparing, true⟩ := by
  unfold lockedServerStep
  simp only [hdeciding, hlock, ne_eq, not_true_eq_false, if_false, Bool.false_eq_true]

/-- Inside, the server does not wait. -/
theorem lockedServerStep_deciding (s : Threads) (point : LockPoint) (held : Bool) (r : Request)
    (peer : Nat) (isValid : Bool) (hdeciding : s.server = .deciding r peer isValid) :
    lockedServerStep host ⟨s, some point, held⟩ =
      some (insideStep host ⟨s, some point, held⟩ r peer isValid point) := by
  unfold lockedServerStep
  simp only [hdeciding]

/-- A request that offers an acceptable chain leads to the decision to switch,
    wherever the miner is. -/
theorem offer_run (s : Threads) (r : Request) (command : CommandSendBlockchain)
    (peer : Blockchain) (verdict : Verdict) (hidle : s.server = .idle)
    (hnamed : s.syncBlockchain < s.fresh)
    (hrecv : receivePeerBlockchain host.byteOrder r = some (.ok (command, peer)))
    (hverify : blockchainVerify host peer = .ok verdict) (hlock : r.lock = 0)
    (hswitch : switchesToPeerBlockchain (s.heap s.syncBlockchain) peer
      verdict.isValidBlockchain = true) :
    Run.run (lockedStep host args) ⟨s, none, false⟩ [.accept r, .serve, .serve, .serve] =
      some ⟨s.received peer (.deciding r s.fresh verdict.isValidBlockchain),
        some (.publishing s.syncBlockchain), true⟩ := by
  have haccept : lockedStep host args ⟨s, none, false⟩ (.accept r) =
      some ⟨s.received peer (.verifying r s.fresh), none, false⟩ := by
    have hstep : serverAccept host s r = some _ :=
      accept_received host args s r command peer hidle hrecv
    simp only [lockedStep, hstep, Option.map_some]
  have hverified : lockedStep host args ⟨s.received peer (.verifying r s.fresh), none, false⟩
      .serve = some ⟨s.received peer (.deciding r s.fresh verdict.isValidBlockchain), none,
        false⟩ := by
    have hstep : serverStep host (s.received peer (.verifying r s.fresh)) = some _ :=
      serve_verified host args s r peer verdict hverify
    simp only [lockedStep, lockedServerStep, Threads.received] at hstep ⊢
    simp only [hstep, Option.map_some]
  -- The last two steps lock the mutex and compare the lengths.
  have hdeciding : (s.received peer (.deciding r s.fresh verdict.isValidBlockchain)).server =
      .deciding r s.fresh verdict.isValidBlockchain := rfl
  have hpublished := received_published s peer (.deciding r s.fresh verdict.isValidBlockchain)
    hnamed
  have hpeer : (s.received peer (.deciding r s.fresh verdict.isValidBlockchain)).heap s.fresh =
      peer := Function.update_self _ _ _
  have hsame : (s.received peer (.deciding r s.fresh
      verdict.isValidBlockchain)).syncBlockchain = s.syncBlockchain := rfl
  generalize s.received peer (.deciding r s.fresh verdict.isValidBlockchain) = t
    at hverified hdeciding hpublished hpeer hsame ⊢
  have hcompare : insideStep host ⟨t, some .comparing, true⟩ r s.fresh verdict.isValidBlockchain
      .comparing = ⟨t, some (.publishing s.syncBlockchain), true⟩ := by
    rw [insideStep, hsame]
    refine if_pos ?_
    rw [hpublished, hpeer]
    exact hswitch
  refine (Run.run_cons _ _ _ _).mpr ⟨_, haccept, (Run.run_cons _ _ _ _).mpr ⟨_, hverified,
    (Run.run_cons _ _ _ _).mpr ⟨_, lockedServerStep_lock host t r s.fresh _ hdeciding hlock,
      (Run.run_cons _ _ _ _).mpr ⟨_, lockedServerStep_deciding host t .comparing true r s.fresh _
        hdeciding, ?_⟩⟩⟩⟩
  rw [hcompare]
  rfl

end Locking

/-- The sample chain is offered to the server. -/
theorem sampleOffer_run :
    Run.run (lockedStep sampleHost sampleArgs) (.startup ⟨[sampleGenesis], 2⟩ 0)
        [.accept (sampleRequest sampleChain sampleChain_small), .serve, .serve, .serve] =
      some ⟨(Threads.startup ⟨[sampleGenesis], 2⟩ 0).received sampleChain
        (.deciding (sampleRequest sampleChain sampleChain_small) 1 true),
          some (.publishing 0), true⟩ := by
  rcases sampleRequest_replaces with ⟨hundisturbed, hreplaces⟩
  rcases hreplaces.received hundisturbed with ⟨command, verdict, hrecv, hverify, hlock, hswitch⟩
  have hvalid : verdict.isValidBlockchain = true :=
    ((switchesToPeerBlockchain_iff _ _ _).mp hswitch).1
  have hoffer := offer_run sampleHost sampleArgs (.startup ⟨[sampleGenesis], 2⟩ 0) _ command
    sampleChain verdict rfl Nat.zero_lt_one hrecv hverify hlock hswitch
  rw [hvalid] at hoffer
  exact hoffer

end LeoCoin
