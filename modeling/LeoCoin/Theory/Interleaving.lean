import LeoCoin.Core.Threads
import LeoCoin.Library.Run
import LeoCoin.Theory.Consensus

/-!
# Interleaving

What one step of either thread can do.

The step functions branch on the point of a thread and on everything the step
meets. What the threads share is touched in few of the branches. The lemmas
here say in which, once for each thread, and every invariant of the two
threads is proved from them.

## Main definitions

* `MinerPoint.blockchains`, `ServerPoint.blockchains`: The chains a thread
  holds a pointer to.
* `MinerMove`: The moves of the miner from point to point.
* `Threads.received`: The state after receiving a chain.
* `handOver`, `Threads.handedOver`: A request that is handled without
  interruption, and what it leads to.

## Theorems

* `minerStep_cases`, `serverAccept_cases`, `serverStep_cases`: A step.
* `MinerMove.blockchains`: Where the pointers of the miner come from.
* `Replaces.received`: A request that offers an acceptable chain is received.
* `switch_run`, `handOver_run`: It leads to a switch.
-/

namespace LeoCoin

/-- The chains the miner holds a pointer to. -/
def MinerPoint.blockchains : MinerPoint → List Nat
  | .start | .finished _ => []
  | .loopTest blockchain _ | .loadMined blockchain | .loadVersion blockchain _
  | .reread blockchain | .reloadVersion blockchain | .storeMined blockchain _
  | .signal blockchain | .verify blockchain | .prepare blockchain | .lookUp blockchain _
  | .append blockchain _ | .report blockchain => [blockchain]
  | .destroyOld oldBlockchain blockchain => [oldBlockchain, blockchain]
  | .nonceTest search | .nonceLoadMined search | .nonceLoadVersion search _
  | .tryNonce search => [search.blockchain, search.syncBlockchain]

/-- The peer's chain, while the server holds it. -/
def ServerPoint.blockchains : ServerPoint → List Nat
  | .idle | .blocked => []
  | .verifying _ peerBlockchain | .deciding _ peerBlockchain _ | .declined peerBlockchain =>
    [peerBlockchain]

/-- The moves of the miner from point to point. What decides between them is
    left out, except that the version it compares with is current when it goes
    on to a nonce, and that the nonce is accepted when it goes on to append. -/
inductive MinerMove (host : Host) (s : Threads) : MinerPoint → MinerPoint → Prop where
  | ends (point returnCode) : MinerMove host s point (.finished returnCode)
  | starts : MinerMove host s .start (.loopTest s.syncBlockchain (.ok ()))
  | loops (c returnCode) : MinerMove host s (.loopTest c returnCode) (.loadMined c)
  | loadsMined (c) :
      MinerMove host s (.loadMined c) (.loadVersion c s.syncVersionCurrentlyMined)
  | outdated (c mined) : MinerMove host s (.loadVersion c mined) (.reread c)
  | upToDate (c mined) : MinerMove host s (.loadVersion c mined) (.verify c)
  | rereads (old) : MinerMove host s (.reread old) (.destroyOld old s.syncBlockchain)
  | reloads (c) : MinerMove host s (.reloadVersion c) (.storeMined c s.syncVersion)
  | signals (c) : MinerMove host s (.signal c) (.verify c)
  | verifies (c) : MinerMove host s (.verify c) (.prepare c)
  | prepares (c block) : MinerMove host s (.prepare c) (.lookUp c block)
  | looksUp (c block) :
      MinerMove host s (.lookUp c block) (.nonceTest ⟨c, s.syncBlockchain, block, 0⟩)
  | stops (search returnCode) :
      MinerMove host s (.nonceTest search) (.loopTest search.blockchain returnCode)
  | tries (search) : MinerMove host s (.nonceTest search) (.nonceLoadMined search)
  | loadsMinedAgain (search) : MinerMove host s (.nonceLoadMined search)
      (.nonceLoadVersion search s.syncVersionCurrentlyMined)
  | overtaken (search mined) :
      MinerMove host s (.nonceLoadVersion search mined) (.loopTest search.blockchain (.ok ()))
  | current (search) :
      MinerMove host s (.nonceLoadVersion search s.syncVersion) (.tryNonce search)
  | finds (search) (h : search.accepts host (s.heap search.syncBlockchain) = true) :
      MinerMove host s (.tryNonce search) (.append search.blockchain search.nextBlock)
  | misses (search block newProof) : MinerMove host s (.tryNonce search)
      (.nonceTest ⟨search.blockchain, search.syncBlockchain, block, newProof⟩)
  | reports (c) : MinerMove host s (.report c) (.loopTest c (.ok ()))

section Steps

variable (host : Host) (args : MineBlocksArgs)

/-- A locked read fails, or it is a read of the published chain. -/
theorem lockedRead_cases (m : MiningConditions) (s : Threads) (next : Nat → MinerPoint) :
    (∃ code, lockedRead m s next = .finished (.error code)) ∨
      lockedRead m s next = next s.syncBlockchain := by
  unfold lockedRead
  by_cases hlock : m.lock = 0
  · by_cases hunlock : m.unlock = 0
    · rw [if_neg (not_not_intro hlock), if_neg (not_not_intro hunlock)]
      exact Or.inr rfl
    · rw [if_neg (not_not_intro hlock), if_pos hunlock]
      exact Or.inl ⟨_, rfl⟩
  · rw [if_pos hlock]
    exact Or.inl ⟨_, rfl⟩

/-- The miner advances by one of its moves. -/
theorem minerAdvance_move (s : Threads) (shouldStop : Bool) (m : MiningConditions)
    (point next : MinerPoint) (h : minerAdvance host args s shouldStop m point = some next) :
    MinerMove host s point next := by
  cases point with
  | start =>
      rw [minerAdvance, Option.some.injEq] at h
      rcases lockedRead_cases m s (fun c => .loopTest c (.ok ())) with ⟨_, hread⟩ | hread
      · rw [← h, hread]
        exact .ends _ _
      · rw [← h, hread]
        exact .starts
  | loopTest c returnCode =>
      rw [minerAdvance] at h
      split at h
      · rw [← Option.some.inj h]
        exact .ends _ _
      · rw [← Option.some.inj h]
        exact .loops _ _
  | loadMined c =>
      rw [← Option.some.inj h]
      exact .loadsMined _
  | loadVersion c mined =>
      rw [minerAdvance] at h
      split at h
      · rw [← Option.some.inj h]
        exact .outdated _ _
      · rw [← Option.some.inj h]
        exact .upToDate _ _
  | reread old =>
      rw [minerAdvance, Option.some.injEq] at h
      rcases lockedRead_cases m s (.destroyOld old) with ⟨_, hread⟩ | hread
      · rw [← h, hread]
        exact .ends _ _
      · rw [← h, hread]
        exact .rereads _
  | reloadVersion c =>
      rw [← Option.some.inj h]
      exact .reloads _
  | signal c =>
      rw [minerAdvance] at h
      split at h
      · rw [← Option.some.inj h]
        exact .ends _ _
      · split at h
        · rw [← Option.some.inj h]
          exact .ends _ _
        · rw [← Option.some.inj h]
          exact .signals _
  | verify c =>
      rw [minerAdvance] at h
      split at h
      · rw [← Option.some.inj h]
        exact .ends _ _
      · exact absurd h (by simp only [reduceCtorEq, not_false_eq_true])
      · rw [← Option.some.inj h]
        exact .ends _ _
      · rw [← Option.some.inj h]
        exact .verifies _
  | prepare c =>
      rw [minerAdvance] at h
      split at h
      · rw [← Option.some.inj h]
        exact .ends _ _
      · rw [← Option.some.inj h]
        exact .prepares _ _
  | lookUp c block =>
      rw [minerAdvance, Option.some.injEq] at h
      rcases lockedRead_cases m s (fun d => .nonceTest ⟨c, d, block, 0⟩) with ⟨_, hread⟩ | hread
      · rw [← h, hread]
        exact .ends _ _
      · rw [← h, hread]
        exact .looksUp _ _
  | nonceTest search =>
      rw [minerAdvance] at h
      split at h
      · rw [← Option.some.inj h]
        exact .stops _ _
      · split at h
        · rw [← Option.some.inj h]
          exact .stops _ _
        · rw [← Option.some.inj h]
          exact .tries _
  | nonceLoadMined search =>
      rw [← Option.some.inj h]
      exact .loadsMinedAgain _
  | nonceLoadVersion search mined =>
      rw [minerAdvance] at h
      -- The move keeps what the comparison found out.
      by_cases hversion : mined = s.syncVersion
      · rw [if_neg (not_not_intro hversion), Option.some.injEq] at h
        rw [← h, hversion]
        exact .current _
      · rw [if_pos hversion, Option.some.injEq] at h
        rw [← h]
        exact .overtaken _ _
  | tryNonce search =>
      rw [minerAdvance] at h
      by_cases haccepts : search.accepts host (s.heap search.syncBlockchain) = true
      · rw [if_pos haccepts, Option.some.injEq] at h
        rw [← h]
        exact .finds _ haccepts
      · rw [if_neg haccepts, Option.some.injEq] at h
        rw [← h]
        exact .misses _ _ _
  | report c =>
      rw [← Option.some.inj h]
      exact .reports _
  | destroyOld | storeMined | append | finished =>
      exact absurd h (by simp only [minerAdvance, reduceCtorEq, not_false_eq_true])

/-- The miner moves on, or it releases a chain, stores a number or appends a
    block. -/
theorem minerStep_cases (s s' : Threads) (shouldStop : Bool) (m : MiningConditions)
    (h : minerStep host args s shouldStop m = some s') :
    (∃ next, MinerMove host s s.miner next ∧
      s' = { s with miner := next }) ∨
    (∃ old blockchain, s.miner = .destroyOld old blockchain ∧
      s' = { s with destroyed := old :: s.destroyed, miner := .reloadVersion blockchain }) ∨
    (∃ blockchain version, s.miner = .storeMined blockchain version ∧
      s' = { s with syncVersionCurrentlyMined := version, miner := .signal blockchain }) ∨
    (∃ blockchain block, s.miner = .append blockchain block ∧
      ((∃ code, s' = { s with miner := .finished (.error code) }) ∨
        s' = { s with
          heap := Function.update s.heap blockchain { s.heap blockchain with
            blockList := (s.heap blockchain).blockList ++ [block] }
          miner := .report blockchain })) := by
  unfold minerStep at h
  cases hpoint : s.miner with
  | destroyOld old blockchain =>
      simp only [hpoint, Option.some.injEq] at h
      exact Or.inr (Or.inl ⟨old, blockchain, rfl, h.symm⟩)
  | storeMined blockchain version =>
      simp only [hpoint, Option.some.injEq] at h
      exact Or.inr (Or.inr (Or.inl ⟨blockchain, version, rfl, h.symm⟩))
  | append blockchain block =>
      refine Or.inr (Or.inr (Or.inr ⟨blockchain, block, rfl, ?_⟩))
      rcases blockchainAddBlock_obtains m.alloc 4 (s.heap blockchain) block with hadd | ⟨hadd, _⟩
      · simp only [hpoint, hadd, Option.some.injEq] at h
        exact Or.inr h.symm
      · simp only [hpoint, hadd, Option.some.injEq] at h
        exact Or.inl ⟨_, h.symm⟩
  | _ =>
      simp only [hpoint, Option.map_eq_some_iff] at h
      rcases h with ⟨next, hnext, heq⟩
      exact Or.inl ⟨next, minerAdvance_move host args s shouldStop m _ next hnext, heq.symm⟩

/-- Receiving a request names a new chain or does nothing. -/
theorem serverAccept_cases (s s' : Threads) (r : Request)
    (h : serverAccept host s r = some s') :
    (∃ point, point.blockchains = [] ∧ s' = { s with server := point }) ∨
    (∃ peer, s' = { s with
      heap := Function.update s.heap s.fresh peer
      fresh := s.fresh + 1
      server := .verifying r s.fresh }) := by
  unfold serverAccept at h
  split at h
  · exact Or.inr ⟨_, (Option.some.inj h).symm⟩
  -- A request that fails leaves the server waiting.
  · rename_i hidle _
    refine Or.inl ⟨.idle, rfl, ?_⟩
    rw [← hidle]
    exact (Option.some.inj h).symm
  · exact Or.inl ⟨.blocked, rfl, (Option.some.inj h).symm⟩
  · exact absurd h (by simp only [reduceCtorEq, not_false_eq_true])

/-- The server moves on, or it switches to the peer's chain, or it releases it. -/
theorem serverStep_cases (s s' : Threads) (h : serverStep host s = some s') :
    (∃ point, s.switches = false ∧ (∀ c ∈ point.blockchains, c ∈ s.server.blockchains) ∧
      s' = { s with server := point }) ∨
    (∃ r peer isValid, s.server = .deciding r peer isValid ∧ s.switches = true ∧
      s' = { s.switchTo peer with server := .idle }) ∨
    (∃ peer, s.server = .declined peer ∧
      s' = { s with destroyed := peer :: s.destroyed, server := .idle }) := by
  have hidle : ∀ c ∈ ServerPoint.idle.blockchains, c ∈ s.server.blockchains :=
    fun _ hc => absurd hc List.not_mem_nil
  unfold serverStep at h
  cases hpoint : s.server with
  | idle => exact absurd h (by simp only [hpoint, reduceCtorEq, not_false_eq_true])
  | blocked => exact absurd h (by simp only [hpoint, reduceCtorEq, not_false_eq_true])
  | verifying r peer =>
      have hswitches : s.switches = false := by simp only [Threads.switches, hpoint]
      rcases hverify : blockchainVerify host (s.heap peer) with code | verdict
      · simp only [hpoint, hverify, Option.some.injEq] at h
        exact Or.inl ⟨.idle, hswitches, hpoint ▸ hidle, h.symm⟩
      · simp only [hpoint, hverify, Option.some.injEq] at h
        exact Or.inl ⟨.deciding r peer verdict.isValidBlockchain, hswitches, fun _ hc => hc, h.symm⟩
  | declined peer =>
      simp only [hpoint, Option.some.injEq] at h
      exact Or.inr (Or.inr ⟨peer, rfl, h.symm⟩)
  | deciding r peer isValid =>
      simp only [hpoint] at h
      by_cases hlock : r.lock = 0
      swap
      · rw [if_pos hlock, Option.some.injEq] at h
        refine Or.inl ⟨.idle, ?_, hpoint ▸ hidle, h.symm⟩
        simp only [Threads.switches, hpoint, beq_eq_false_iff_ne.mpr hlock, Bool.false_and]
      rw [if_neg (not_not_intro hlock)] at h
      by_cases hswitches : s.switches = true
      · -- After a switch the server does not come to release the peer's chain.
        simp only [hswitches, if_true, or_true] at h
        refine Or.inr (Or.inl ⟨r, peer, isValid, rfl, hswitches, ?_⟩)
        split at h
        · exact (Option.some.inj h).symm
        · exact (Option.some.inj h).symm
      · have hfalse := eq_false_of_ne_true hswitches
        simp only [hfalse, Bool.false_eq_true, if_false, or_false] at h
        split at h
        · exact Or.inl ⟨.idle, hfalse, hpoint ▸ hidle, (Option.some.inj h).symm⟩
        · split at h
          · exact Or.inl ⟨.idle, hfalse, hpoint ▸ hidle, (Option.some.inj h).symm⟩
          · exact Or.inl ⟨.declined peer, hfalse, fun _ hc => hc, (Option.some.inj h).symm⟩

end Steps

/-- A pointer of the miner is one it had or the published one. -/
theorem MinerMove.blockchains {host : Host} {s : Threads} {point next : MinerPoint}
    (h : MinerMove host s point next) :
    ∀ c ∈ next.blockchains, c = s.syncBlockchain ∨ c ∈ point.blockchains := by
  intro c hc
  cases h with
  | ends => exact absurd hc List.not_mem_nil
  | starts => exact Or.inl (List.mem_singleton.mp hc)
  | rereads old =>
      rcases List.mem_pair.mp hc with rfl | rfl
      · exact Or.inr List.mem_cons_self
      · exact Or.inl rfl
  | looksUp blockchain block =>
      rcases List.mem_pair.mp hc with rfl | rfl
      · exact Or.inr List.mem_cons_self
      · exact Or.inl rfl
  | stops search | overtaken search | finds search =>
      rw [List.mem_singleton.mp hc]
      exact Or.inr List.mem_cons_self
  | _ => exact Or.inr hc

/-- A chain was received and named, and the server is at the given point. -/
def Threads.received (s : Threads) (peer : Blockchain) (server : ServerPoint) : Threads :=
  { s with
    heap := Function.update s.heap s.fresh peer
    fresh := s.fresh + 1
    server := server }

/-- The new name is not the one of the published chain. -/
theorem received_published (s : Threads) (peer : Blockchain) (server : ServerPoint)
    (hnamed : s.syncBlockchain < s.fresh) :
    (s.received peer server).heap s.syncBlockchain = s.heap s.syncBlockchain :=
  Function.update_of_ne (Nat.ne_of_lt hnamed) _ _

theorem received_switches (s : Threads) (r : Request) (peer : Blockchain) (isValid : Bool)
    (hlock : r.lock = 0) (hnamed : s.syncBlockchain < s.fresh) :
    (s.received peer (.deciding r s.fresh isValid)).switches =
      switchesToPeerBlockchain (s.heap s.syncBlockchain) peer isValid := by
  have hpublished := received_published s peer (.deciding r s.fresh isValid) hnamed
  simp only [Threads.received] at hpublished
  simp only [Threads.switches, Threads.received, hlock, BEq.rfl, Bool.true_and, hpublished,
    Function.update_self]

section Received

variable (host : Host) (args : MineBlocksArgs) (s : Threads) (r : Request)

theorem accept_received (command : CommandSendBlockchain) (peer : Blockchain)
    (hidle : s.server = .idle)
    (hrecv : receivePeerBlockchain host.byteOrder r = some (.ok (command, peer))) :
    threadStep host args s (.accept r) = some (s.received peer (.verifying r s.fresh)) := by
  simp only [threadStep, serverAccept, hidle, hrecv, Threads.received]

theorem serve_verified (peer : Blockchain) (verdict : Verdict)
    (hverify : blockchainVerify host peer = .ok verdict) :
    threadStep host args (s.received peer (.verifying r s.fresh)) .serve =
      some (s.received peer (.deciding r s.fresh verdict.isValidBlockchain)) := by
  simp only [threadStep, serverStep, Threads.received, Function.update_self, hverify]

end Received

/-- The steps of the server on a request. -/
def handOver (r : Request) : List ThreadAction := [.accept r, .serve, .serve]

/-- The peer's chain is published, under a new name. -/
def Threads.handedOver (s : Threads) (peer : Blockchain) : Threads :=
  { s with
    heap := Function.update s.heap s.fresh peer
    fresh := s.fresh + 1
    syncBlockchain := s.fresh
    syncVersion := s.syncVersion + 1
    destroyed := s.syncBlockchain :: s.destroyed }

/-- The steps of the server on a request whose chain is published, wherever the
    miner is. -/
theorem switch_run (host : Host) (args : MineBlocksArgs) (s : Threads) (r : Request)
    (command : CommandSendBlockchain) (peer : Blockchain) (verdict : Verdict)
    (hidle : s.server = .idle) (hnamed : s.syncBlockchain < s.fresh)
    (hrecv : receivePeerBlockchain host.byteOrder r = some (.ok (command, peer)))
    (hverify : blockchainVerify host peer = .ok verdict) (hlock : r.lock = 0)
    (hswitch : switchesToPeerBlockchain (s.heap s.syncBlockchain) peer
      verdict.isValidBlockchain = true) :
    Run.run (threadStep host args) s (handOver r) = some (s.handedOver peer) := by
  have hswitches : (s.received peer (.deciding r s.fresh verdict.isValidBlockchain)).switches =
      true := by
    rw [received_switches s r peer _ hlock hnamed, hswitch]
  refine (Run.run_cons _ _ _ _).mpr ⟨_, accept_received host args s r command peer hidle hrecv,
    (Run.run_cons _ _ _ _).mpr ⟨_, serve_verified host args s r peer verdict hverify,
      (Run.run_cons _ _ _ _).mpr ⟨s.handedOver peer, ?_, rfl⟩⟩⟩
  -- After a switch the server is done, whether or not the chain can be encoded.
  unfold threadStep serverStep
  simp only [hswitches, if_true, or_true]
  simp only [Threads.received, hlock, ne_eq, not_true_eq_false, if_false]
  split
  · simp only [Threads.switchTo, Threads.handedOver, hidle]
  · simp only [Threads.switchTo, Threads.handedOver, hidle]

/-- A request that offers a valid, longer chain of the same difficulty is received,
    verified and switched to. -/
theorem Replaces.received {host : Host} {sync : SynchronizedBlockchain} {r : Request}
    {peer : Blockchain} (hr : Replaces host sync r peer) (h : Undisturbed r) :
    ∃ command verdict, receivePeerBlockchain host.byteOrder r = some (.ok (command, peer)) ∧
      blockchainVerify host peer = .ok verdict ∧ r.lock = 0 ∧
      switchesToPeerBlockchain sync.blockchain peer verdict.isValidBlockchain = true := by
  rcases receivePeerBlockchain_cases host.byteOrder r h with
    ⟨_, _, hnone⟩ | ⟨command, c, hrecv, _, _, hone⟩
  · exact absurd hr.offered (hnone peer)
  -- The chain that is to replace the published one is the chain decoded.
  rw [← (hone peer).mp hr.offered] at hrecv
  rcases hr.valid with ⟨verdict, hverify, hvalid⟩
  exact ⟨command, verdict, hrecv, hverify, h.lock,
    (switchesToPeerBlockchain_iff _ _ _).mpr ⟨hvalid, hr.longer, hr.difficulty⟩⟩

/-- Such a request leads to a switch, wherever the miner is. -/
theorem handOver_run (host : Host) (args : MineBlocksArgs) (s : Threads) (r : Request)
    (peer : Blockchain) (hidle : s.server = .idle) (hnamed : s.syncBlockchain < s.fresh)
    (h : Undisturbed r) (hr : Replaces host ⟨s.heap s.syncBlockchain, s.syncVersion⟩ r peer) :
    Run.run (threadStep host args) s (handOver r) = some (s.handedOver peer) := by
  rcases hr.received h with ⟨command, verdict, hrecv, hverify, hlock, hswitch⟩
  exact switch_run host args s r command peer verdict hidle hnamed hrecv hverify hlock hswitch

end LeoCoin
