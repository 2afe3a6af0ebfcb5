import LeoCoin.Theory.Interleaving

/-!
# Sequential Runs

What a thread does if the other one does not come between.

The functions of the node are modelled twice, each as a whole and as the steps
of a thread. Here the two are compared. A request that is handled in one go
leaves published what the handler leaves, and an iteration of the mining loop
that nothing interrupts leaves what the iteration leaves.

The nonce loop takes four steps for each nonce, so the number of steps depends
on the digests. It is followed by induction on the nonces that are left.

## Main definitions

* `Threads.sync`: What the sequential models call the published chain.

## Theorems

* `serverRun_handles`: The steps of the server are the handler.
* `loopTest_run`: The way to the verification, if the version is current.
* `nonceLoop_run`: The steps of the search are the loop over the nonces.
* `minerRun_mines`: The steps of the miner are the iteration.
-/

namespace LeoCoin

/-- The published chain and its version. -/
def Threads.sync (s : Threads) : SynchronizedBlockchain :=
  ⟨s.heap s.syncBlockchain, s.syncVersion⟩

theorem received_sync (s : Threads) (peer : Blockchain) (server : ServerPoint)
    (hnamed : s.syncBlockchain < s.fresh) : (s.received peer server).sync = s.sync := by
  unfold Threads.sync
  rw [← received_published s peer server hnamed]
  rfl

/-- The decision of the thread is the decision of the handler. -/
theorem decided_sync (printProgress : Bool) (s : Threads) (r : Request) (peer : Blockchain)
    (isValid : Bool) (hlock : r.lock = 0) (hnamed : s.syncBlockchain < s.fresh) :
    Threads.sync (if (s.received peer (.deciding r s.fresh isValid)).switches then
        (s.received peer (.deciding r s.fresh isValid)).switchTo s.fresh
      else s.received peer (.deciding r s.fresh isValid)) =
      (considerPeerBlockchain printProgress s.sync peer isValid).1 := by
  have hswitches : (s.received peer (.deciding r s.fresh isValid)).switches =
      switchesToPeerBlockchain s.sync.blockchain peer isValid :=
    received_switches s r peer isValid hlock hnamed
  unfold considerPeerBlockchain
  rw [hswitches]
  by_cases hswitch : switchesToPeerBlockchain s.sync.blockchain peer isValid = true
  · rw [if_pos hswitch, if_pos hswitch]
    simp only [Threads.sync, Threads.switchTo, Threads.received, Function.update_self]
  · rw [if_neg hswitch, if_neg hswitch]
    exact received_sync s peer _ hnamed

section Server

variable (host : Host) (args : MineBlocksArgs)

/-- Having decided, the server goes back to waiting, if need be over the release
    of the peer's chain. What is published stays. -/
theorem deciding_run (s : Threads) (r : Request) (peer : Nat) (isValid : Bool)
    (hpoint : s.server = .deciding r peer isValid) (hlock : r.lock = 0) :
    ∃ t, Run.Repeats (threadStep host args) .serve s t ∧
      t.sync = Threads.sync (if s.switches then s.switchTo peer else s) ∧
      t.miner = s.miner ∧ t.server = .idle := by
  generalize hdecided : (if s.switches then s.switchTo peer else s) = decided
  have hminer : decided.miner = s.miner := by
    rw [← hdecided]
    split <;> rfl
  have hstep : threadStep host args s .serve = some { decided with server := .idle } ∨
      threadStep host args s .serve = some { decided with server := .declined peer } := by
    simp only [threadStep, serverStep, hpoint, hlock, ne_eq, not_true_eq_false, if_false, hdecided]
    split
    · exact Or.inl rfl
    · split
      · exact Or.inl rfl
      · exact Or.inr rfl
  -- One more step releases a chain that was declined.
  rcases hstep with hidle | hdeclined
  · exact ⟨_, .head hidle (.refl _), rfl, hminer, rfl⟩
  · exact ⟨{ decided with destroyed := peer :: decided.destroyed, server := .idle },
      .head hdeclined (.head rfl (.refl _)), rfl, hminer, rfl⟩

/-- A request that is handled in one go leaves published what the handler
    leaves, and the miner where it was. -/
theorem serverRun_handles (printProgress : Bool) (s : Threads) (r : Request) (out : Handled)
    (hidle : s.server = .idle) (hnamed : s.syncBlockchain < s.fresh)
    (h : handleOneConsensusRequest host printProgress s.sync r = some out) :
    ∃ s' t, threadStep host args s (.accept r) = some s' ∧
      Run.Repeats (threadStep host args) .serve s' t ∧ t.sync = out.sync ∧
      t.miner = s.miner ∧ (t.server = .idle ∨ t.server = .blocked) := by
  unfold handleOneConsensusRequest at h
  rcases hrecv : receivePeerBlockchain host.byteOrder r with
    _ | ⟨⟨code⟩ | _⟩ | ⟨command, peer⟩
  · simp only [hrecv, reduceCtorEq] at h
  · simp only [hrecv, Option.some.injEq] at h
    refine ⟨s, s, ?_, .refl s, ?_, rfl, Or.inl hidle⟩
    · simp only [threadStep, serverAccept, hidle, hrecv]
    · rw [← h]
  · simp only [hrecv, Option.some.injEq] at h
    refine ⟨{ s with server := .blocked }, _, ?_, .refl _, ?_, rfl, Or.inr rfl⟩
    · simp only [threadStep, serverAccept, hidle, hrecv]
    · rw [← h]
      rfl
  simp only [hrecv] at h
  -- From here on a chain was received, and the steps follow the handler's exits.
  have haccept := accept_received host args s r command peer hidle hrecv
  rcases hverify : blockchainVerify host peer with code | verdict
  · simp only [hverify, Option.some.injEq] at h
    refine ⟨_, s.received peer .idle, haccept, .head ?_ (.refl _), ?_, rfl, Or.inl rfl⟩
    · simp only [threadStep, serverStep, Threads.received, Function.update_self, hverify]
    · rw [received_sync s peer _ hnamed, ← h]
  simp only [hverify] at h
  have hverified := serve_verified host args s r peer verdict hverify
  by_cases hlock : r.lock = 0
  · rw [if_neg (not_not_intro hlock), Option.some.injEq] at h
    rcases deciding_run host args
      (s.received peer (.deciding r s.fresh verdict.isValidBlockchain)) r s.fresh _ rfl hlock with
      ⟨t, hrun, hsync, hminer, hserver⟩
    refine ⟨_, t, haccept, .head hverified hrun, ?_, hminer, Or.inl hserver⟩
    rw [hsync, decided_sync printProgress s r peer _ hlock hnamed, ← h,
      (replyWithBlockchain_spec _ _ _ _ _).1]
  · rw [if_pos hlock, Option.some.injEq] at h
    refine ⟨_, s.received peer .idle, haccept, .head hverified (.head ?_ (.refl _)), ?_, rfl,
      Or.inl rfl⟩
    · simp only [threadStep, serverStep, Threads.received]
      rw [if_pos hlock]
    · rw [received_sync s peer _ hnamed, ← h]

end Server

section Miner

variable (host : Host) (args : MineBlocksArgs) (m : MiningConditions)

/-- With the version current, the miner passes the checks before a nonce. -/
theorem nonceChecks_run (s : Threads) (hcurrent : s.syncVersionCurrentlyMined = s.syncVersion)
    (search : Search) (hcount : search.newProof.toNat < numNonces) :
    Run.Repeats (threadStep host args) (.mine false m) { s with miner := .nonceTest search }
      { s with miner := .tryNonce search } := by
  have htest : threadStep host args { s with miner := .nonceTest search } (.mine false m) =
      some { s with miner := .nonceLoadMined search } := by
    simp only [threadStep, minerStep, minerAdvance, ge_iff_le, Nat.not_le.mpr hcount, if_false,
      Bool.false_eq_true, Option.map_some]
  have hload : threadStep host args { s with miner := .nonceLoadMined search } (.mine false m) =
      some { s with miner := .nonceLoadVersion search s.syncVersionCurrentlyMined } := by
    simp only [threadStep, minerStep, minerAdvance, Option.map_some]
  have hcompare : threadStep host args { s with
      miner := .nonceLoadVersion search s.syncVersionCurrentlyMined } (.mine false m) =
      some { s with miner := .tryNonce search } := by
    simp only [threadStep, minerStep, minerAdvance, hcurrent, ne_eq, not_true_eq_false, if_false,
      Option.map_some]
  exact .head htest (.head hload (.head hcompare (.refl _)))

/-- The steps of the search end as the loop over the nonces does: with the same
    block on the way to the miner's chain, or with none. -/
theorem nonceLoop_run (printProgress : Bool)
    (interrupted : UInt64 → Display → Option (ReturnCode × Display))
    (hquiet : ∀ newProof d, interrupted newProof d = none) (s : Threads)
    (hcurrent : s.syncVersionCurrentlyMined = s.syncVersion) (remaining : Nat) (search : Search)
    (d : Display) (hcount : search.newProof.toNat + remaining = numNonces) (result : MiningResult)
    (hresult : result = mineLoop host (s.heap search.syncBlockchain) printProgress interrupted
      remaining search.newProof search.block d) :
    (result.returnCode = .ok () ∧
      Run.Repeats (threadStep host args) (.mine false m) { s with miner := .nonceTest search }
        { s with miner := .append search.blockchain result.block }) ∨
    (result.returnCode = .error .failureCouldNotFindValidProofOfWork ∧
      Run.Repeats (threadStep host args) (.mine false m) { s with miner := .nonceTest search }
        { s with miner := .loopTest search.blockchain result.returnCode }) := by
  induction remaining generalizing search d with
  | zero =>
      rw [hresult, mineLoop]
      refine Or.inr ⟨rfl, .head ?_ (.refl _)⟩
      rw [Nat.add_zero] at hcount
      simp only [threadStep, minerStep, minerAdvance, hcount, ge_iff_le, Nat.le_refl, if_true,
        Option.map_some]
  | succ k ih =>
      -- There are nonces left, so the count has not reached the end.
      have hchecks := nonceChecks_run host args m s hcurrent search (by omega)
      rw [mineLoop, hquiet] at hresult
      simp only [] at hresult
      by_cases haccepts : blockchainIsValidBlockHash host (s.heap search.syncBlockchain)
          (blockHash host { search.block with proofOfWork := search.newProof }) = true
      · have hfound : threadStep host args { s with miner := .tryNonce search } (.mine false m) =
            some { s with miner := .append search.blockchain search.nextBlock } := by
          simp only [threadStep, minerStep, minerAdvance, Search.accepts, Search.nextBlock,
            haccepts, if_true, Option.map_some]
        rw [if_pos haccepts] at hresult
        rw [hresult]
        exact Or.inl ⟨rfl, hchecks.trans (.head hfound (.refl _))⟩
      · -- The next nonce is tried on the block with this one in it.
        have hnext : threadStep host args { s with miner := .tryNonce search } (.mine false m) =
            some { s with miner := .nonceTest { search with
              block := search.nextBlock
              newProof := search.newProof + 1 } } := by
          simp only [threadStep, minerStep, minerAdvance, Search.accepts, Search.nextBlock,
            haccepts, if_false, Bool.false_eq_true, Option.map_some]
        rw [if_neg haccepts] at hresult
        -- The next nonce is below the end, so counting up does not wrap.
        have hsucc : (search.newProof + 1).toNat + k = numNonces := by
          unfold numNonces at hcount ⊢
          rw [UInt64.toNat_add]
          change (search.newProof.toNat + 1) % 2 ^ 64 + k = _
          omega
        rcases ih { search with block := search.nextBlock, newProof := search.newProof + 1 } _ hsucc
          hresult with ⟨hcode, hrun⟩ | ⟨hcode, hrun⟩
        · exact Or.inl ⟨hcode, hchecks.trans (.head hnext hrun)⟩
        · exact Or.inr ⟨hcode, hchecks.trans (.head hnext hrun)⟩

/-- With the version current, the miner passes the check before a block, from
    wherever it is on the way there. -/
theorem loadVersion_run (s : Threads) (c : Nat)
    (hpoint : s.miner = .loadVersion c s.syncVersionCurrentlyMined)
    (hcurrent : s.syncVersionCurrentlyMined = s.syncVersion) :
    Run.Repeats (threadStep host args) (.mine false m) s { s with miner := .verify c } := by
  refine .head ?_ (.refl _)
  simp only [threadStep, minerStep, hpoint, minerAdvance, hcurrent, ne_eq, not_true_eq_false,
    if_false, Option.map_some]

theorem signal_run (s : Threads) (c : Nat) (hpoint : s.miner = .signal c) (hlock : m.lock = 0)
    (hunlock : m.unlock = 0) :
    Run.Repeats (threadStep host args) (.mine false m) s { s with miner := .verify c } := by
  refine .head ?_ (.refl _)
  simp only [threadStep, minerStep, hpoint, minerAdvance, hlock, hunlock, ne_eq,
    not_true_eq_false, if_false, Option.map_some]

theorem loadMined_run (s : Threads) (c : Nat) (hpoint : s.miner = .loadMined c)
    (hcurrent : s.syncVersionCurrentlyMined = s.syncVersion) :
    Run.Repeats (threadStep host args) (.mine false m) s { s with miner := .verify c } := by
  refine .head ?_ (loadVersion_run host args m { s with
    miner := .loadVersion c s.syncVersionCurrentlyMined } c rfl hcurrent)
  simp only [threadStep, minerStep, hpoint, minerAdvance, Option.map_some]

theorem loopTest_run (s : Threads) (c : Nat) (returnCode : Except ReturnCode Unit)
    (hpoint : s.miner = .loopTest c returnCode)
    (hcurrent : s.syncVersionCurrentlyMined = s.syncVersion) :
    Run.Repeats (threadStep host args) (.mine false m) s { s with miner := .verify c } := by
  refine .head ?_ (loadMined_run host args m { s with miner := .loadMined c } c rfl hcurrent)
  simp only [threadStep, minerStep, hpoint, minerAdvance, if_false, Bool.false_eq_true,
    Option.map_some]

/-- A miner that gives up at a point it came to leaves published what there was,
    and ends with the code it gives up with. -/
theorem finished_run (s : Threads) (point : MinerPoint) (code : ReturnCode) (out : MiningOutcome)
    (hrun : Run.Repeats (threadStep host args) (.mine false m) s { s with miner := point })
    (hstep : threadStep host args { s with miner := point } (.mine false m) =
      some { s with miner := .finished (.error code) })
    (hout : MiningOutcome.mk (.error code) s.sync = out) :
    ∃ t, Run.Repeats (threadStep host args) (.mine false m) s t ∧ t.sync = out.sync ∧
      (t.miner = .loopTest s.syncBlockchain out.returnCode ∨
        t.miner = .finished out.returnCode) := by
  refine ⟨_, hrun.trans (.head hstep (.refl _)), ?_, Or.inr ?_⟩
  · rw [← hout]
    rfl
  · rw [← hout]

/-- An iteration of the mining loop that nothing interrupts leaves published
    what the iteration of the sequential model leaves, and the miner at the top
    of its loop or finished, with the same code. -/
theorem minerRun_mines (s : Threads) (returnCode : Except ReturnCode Unit) (out : MiningOutcome)
    (hpoint : s.miner = .loopTest s.syncBlockchain returnCode)
    (hcurrent : s.syncVersionCurrentlyMined = s.syncVersion) (hlock : m.lock = 0)
    (hunlock : m.unlock = 0) (hstop : ∀ newProof, m.readings.shouldStop newProof = false)
    (hversion : ∀ newProof,
      m.readings.syncVersionCurrentlyMined newProof = m.readings.syncVersion newProof)
    (h : mineBlocksIteration host args m s.sync = some out) :
    ∃ t, Run.Repeats (threadStep host args) (.mine false m) s t ∧ t.sync = out.sync ∧
      (t.miner = .loopTest s.syncBlockchain out.returnCode ∨
        t.miner = .finished out.returnCode) := by
  have hchecks := loopTest_run host args m s _ returnCode hpoint hcurrent
  -- The miner's chain is the one the iteration is given.
  have hheap : s.heap s.syncBlockchain = s.sync.blockchain := rfl
  unfold mineBlocksIteration at h
  rcases hverify : blockchainVerify host s.sync.blockchain with code | ⟨_ | _, first⟩
  · simp only [hverify, Option.some.injEq] at h
    refine finished_run host args m s _ code out hchecks ?_ h
    simp only [threadStep, minerStep, minerAdvance, hheap, hverify, Option.map_some]
  · rcases first with _ | idx
    · simp only [hverify, reduceCtorEq] at h
    · simp only [hverify, Option.some.injEq] at h
      refine finished_run host args m s _ .failureInvalidBlockchain out hchecks ?_ h
      simp only [threadStep, minerStep, minerAdvance, hheap, hverify, Option.map_some]
  simp only [hverify] at h
  have hverified : threadStep host args { s with miner := .verify s.syncBlockchain }
      (.mine false m) = some { s with miner := .prepare s.syncBlockchain } := by
    simp only [threadStep, minerStep, minerAdvance, hheap, hverify, Option.map_some]
  rcases hnext : prepareNextBlock host args m s.sync.blockchain with code | nextBlock
  · simp only [hnext, Option.some.injEq] at h
    refine finished_run host args m s _ code out (hchecks.trans (.head hverified (.refl _))) ?_ h
    simp only [threadStep, minerStep, minerAdvance, hheap, hnext, Option.map_some]
  simp only [hnext] at h
  have hprepared : threadStep host args { s with miner := .prepare s.syncBlockchain }
      (.mine false m) = some { s with miner := .lookUp s.syncBlockchain nextBlock } := by
    simp only [threadStep, minerStep, minerAdvance, hheap, hnext, Option.map_some]
  have hlooked : threadStep host args { s with miner := .lookUp s.syncBlockchain nextBlock }
      (.mine false m) = some { s with
        miner := .nonceTest ⟨s.syncBlockchain, s.syncBlockchain, nextBlock, 0⟩ } := by
    simp only [threadStep, minerStep, minerAdvance, lockedRead, hlock, hunlock, ne_eq,
      not_true_eq_false, if_false, Option.map_some]
  have hbegun := hchecks.trans (.head hverified (.head hprepared (.head hlooked (.refl _))))
  -- Nothing interrupts the search, so it is the loop over all nonces.
  generalize hresult : synchronizedBlockchainMineBlock host s.sync m.lock m.unlock nextBlock
    args.printProgress m.readings = result at h
  unfold synchronizedBlockchainMineBlock at hresult
  rw [if_neg (not_not_intro hlock), if_neg (not_not_intro hunlock)] at hresult
  rcases nonceLoop_run host args m args.printProgress _
    (fun newProof d => by
      simp only [hstop, hversion, Bool.false_eq_true, ne_eq, not_true_eq_false, if_false])
    s hcurrent numNonces ⟨s.syncBlockchain, s.syncBlockchain, nextBlock, 0⟩ Display.start
    (Nat.zero_add numNonces) result hresult.symm with ⟨hcode, hrun⟩ | ⟨hcode, hrun⟩
  swap
  · simp only [hcode, Option.some.injEq] at h
    refine ⟨_, hbegun.trans hrun, ?_, Or.inl ?_⟩
    · rw [← h]
      rfl
    · rw [← h, hcode]
  simp only [hcode] at h
  rcases hadd : blockchainAddBlock m.alloc 4 s.sync.blockchain result.block with code | longer
  · simp only [hadd, Option.some.injEq] at h
    refine finished_run host args m s _ code out (hbegun.trans hrun) ?_ h
    simp only [threadStep, minerStep, hheap, hadd]
  · simp only [hadd, Option.some.injEq] at h
    have happended : threadStep host args
        { s with miner := .append s.syncBlockchain result.block } (.mine false m) = some { s with
          heap := Function.update s.heap s.syncBlockchain longer
          miner := .report s.syncBlockchain } := by
      simp only [threadStep, minerStep, hheap, hadd]
    have hreported : threadStep host args { s with
        heap := Function.update s.heap s.syncBlockchain longer
        miner := .report s.syncBlockchain } (.mine false m) = some { s with
          heap := Function.update s.heap s.syncBlockchain longer
          miner := .loopTest s.syncBlockchain (.ok ()) } := by
      simp only [threadStep, minerStep, minerAdvance, Option.map_some]
    refine ⟨_, (hbegun.trans hrun).trans (.head happended (.head hreported (.refl _))), ?_,
      Or.inl ?_⟩
    · rw [← h]
      simp only [Threads.sync, Function.update_self]
    · rw [← h]

end Miner

end LeoCoin
