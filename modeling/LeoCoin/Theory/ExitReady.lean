import LeoCoin.Core.MineBlocks
import LeoCoin.Library.Run

/-!
# Exit Ready

When the miner announces that it exits.

Callers wait for `exit_ready` with a timeout to join the miner, and the flag is
to be set just before the function returns. It is set behind the loop, so a run
that leaves the loop through its condition sets it. Every other way out jumps
over it: a mutex function that fails, a chain that is invalid, has no block or
cannot be checked, memory that is refused, and a signature that is not made.

So the flag is set exactly if nothing fails. `RoundSucceeds` says what that is
for a round, call by call, and the rest is an induction along the run.

## Main definitions

* `MiningRound.current`: The chain a round mines on.
* `RoundSucceeds`: No call of a round fails.
* `NothingFails`: The same, at a state of the function.
* `quietMiningRound`: A round in which memory is granted and no lock fails.

## Theorems

* `switchChain_ok_iff`, `prepareNextBlock_ok_iff`, `searchAndAppend_ok_iff`: The
  parts of a round.
* `mineBlocksRound_goesOn_iff`: A round goes on if no call fails.
* `mineBlocksRound_of_iteration`: An iteration is a round on the published chain.
* `mineBlocksStep_cases`: What a step leads to.
* `run_exitReady_iff`, `exitReady_iff`: When the flag is set.
* `noBlocks_silent`: A miner that exits without a word.
-/

namespace LeoCoin

open Run

/-- The chain a round mines on, if no mutex function fails. -/
def MiningRound.current (round : MiningRound) (blockchain : Blockchain) : Blockchain :=
  if round.syncVersionCurrentlyMined ≠ round.syncVersion then round.switchBlockchain
  else blockchain

/-- No call fails in a round that begins with the given chain. A block is
    appended only if a nonce is found for it. -/
structure RoundSucceeds (host : Host) (args : MineBlocksArgs) (round : MiningRound)
    (blockchain : Blockchain) : Prop where
  switches : round.syncVersionCurrentlyMined ≠ round.syncVersion →
    round.switchLock = 0 ∧ round.switchUnlock = 0 ∧ round.signalLock = 0 ∧
      round.signalUnlock = 0
  valid : ∃ first, blockchainVerify host (round.current blockchain) = .ok ⟨true, first⟩
  notEmpty : (round.current blockchain).blockList ≠ []
  list : round.conditions.alloc.grants 0 sizeofLinkedList = true
  signs : ∃ mint, transactionCreate host round.conditions.alloc 1 round.conditions.transactionTime
    args.minerPublicKey args.minerPublicKey AMOUNT_GENERATED_DURING_MINTING
    args.minerPrivateKey = .ok mint
  prepends : round.conditions.alloc.grants 2 sizeofNode = true
  creates : round.conditions.alloc.grants 3 sizeofBlock = true
  searches : round.conditions.lock = 0 ∧ round.conditions.unlock = 0
  appends : ∀ nextBlock,
    prepareNextBlock host args round.conditions (round.current blockchain) = .ok nextBlock →
    (round.search host args nextBlock).returnCode = .ok () →
      round.conditions.alloc.grants 4 sizeofNode = true

theorem switchChain_ok_iff (round : MiningRound) (c c' : Blockchain) :
    switchChain round c = .ok c' ↔
      c' = round.current c ∧ (round.syncVersionCurrentlyMined ≠ round.syncVersion →
        round.switchLock = 0 ∧ round.switchUnlock = 0 ∧ round.signalLock = 0 ∧
          round.signalUnlock = 0) := by
  unfold switchChain MiningRound.current
  by_cases hversion : round.syncVersionCurrentlyMined ≠ round.syncVersion
  · rw [if_pos hversion, if_pos hversion]
    by_cases h1 : round.switchLock = 0
    · by_cases h2 : round.switchUnlock = 0
      · by_cases h3 : round.signalLock = 0
        · by_cases h4 : round.signalUnlock = 0
          · simp only [h1, h2, h3, h4, ne_eq, not_true_eq_false, if_false, Except.ok.injEq,
              and_self, implies_true, and_true, eq_comm]
          · simp only [h1, h2, h3, h4, hversion, ne_eq, not_true_eq_false, not_false_eq_true,
              if_false, if_true, reduceCtorEq, and_false, forall_const]
        · simp only [h1, h2, h3, hversion, ne_eq, not_true_eq_false, not_false_eq_true,
            if_false, if_true, reduceCtorEq, and_false, false_and, forall_const]
      · simp only [h1, h2, hversion, ne_eq, not_true_eq_false, not_false_eq_true,
          if_false, if_true, reduceCtorEq, and_false, false_and, forall_const]
    · simp only [h1, hversion, ne_eq, not_false_eq_true, if_true, reduceCtorEq, and_false,
        false_and, forall_const]
  · rw [if_neg hversion, if_neg hversion]
    constructor
    · intro h
      exact ⟨(Except.ok.inj h).symm, fun h => absurd h hversion⟩
    · intro h
      rw [h.1]

/-- A block is built if the chain has a last one, memory is granted, and the
    transaction is made. -/
theorem prepareNextBlock_ok_iff (host : Host) (args : MineBlocksArgs) (m : MiningConditions)
    (c : Blockchain) :
    (∃ nextBlock, prepareNextBlock host args m c = .ok nextBlock) ↔
      c.blockList ≠ [] ∧ m.alloc.grants 0 sizeofLinkedList = true ∧
        (∃ mint, transactionCreate host m.alloc 1 m.transactionTime args.minerPublicKey
          args.minerPublicKey AMOUNT_GENERATED_DURING_MINTING args.minerPrivateKey = .ok mint) ∧
        m.alloc.grants 2 sizeofNode = true ∧ m.alloc.grants 3 sizeofBlock = true := by
  unfold prepareNextBlock linkedListGetLast
  rcases hlast : c.blockList.getLast? with _ | previous
  · simp only [reduceCtorEq, exists_false, false_iff, not_and]
    exact fun hne => absurd (List.getLast?_eq_none_iff.mp hlast) hne
  have hne : c.blockList ≠ [] := by
    intro hnil
    rw [hnil] at hlast
    exact absurd hlast (by simp only [List.getLast?_nil, reduceCtorEq, not_false_eq_true])
  simp only [linkedListCreate, linkedListPrepend, blockCreate]
  -- Each stage is reached only if the one before it succeeds.
  by_cases h0 : m.alloc.grants 0 sizeofLinkedList = true
  swap
  · simp only [h0, Bool.false_eq_true, if_false, reduceCtorEq, exists_false, false_and, and_false]
  rcases hmint : transactionCreate host m.alloc 1 m.transactionTime args.minerPublicKey
    args.minerPublicKey AMOUNT_GENERATED_DURING_MINTING args.minerPrivateKey with code | mint
  · simp only [h0, if_true, reduceCtorEq, exists_false, false_and, and_false]
  by_cases h2 : m.alloc.grants 2 sizeofNode = true
  swap
  · simp only [h0, h2, Bool.false_eq_true, if_true, if_false, reduceCtorEq, exists_false,
      false_and, and_false]
  by_cases h3 : m.alloc.grants 3 sizeofBlock = true
  swap
  · simp only [h0, h2, h3, Bool.false_eq_true, if_true, if_false, reduceCtorEq, exists_false,
      and_false]
  · simp only [h0, h2, h3, if_true, Except.ok.injEq, exists_eq', ne_eq, hne, not_false_eq_true,
      and_self]

/-- A search ends with a code that the loop goes on with, if what interrupts it
    does. -/
theorem mineLoop_goesOn (host : Host) (c : Blockchain) (printProgress : Bool)
    (interrupted : UInt64 → Display → Option (ReturnCode × Display))
    (hint : ∀ p d code d', interrupted p d = some (code, d') → (searchGoesOn code).isSome = true)
    (remaining : Nat) (newProof : UInt64) (block : Block) (d : Display) (code : ReturnCode)
    (h : (mineLoop host c printProgress interrupted remaining newProof block d).returnCode =
      .error code) : (searchGoesOn code).isSome = true := by
  induction remaining generalizing newProof block d with
  | zero =>
      simp only [mineLoop, Except.error.injEq] at h
      rw [← h]
      rfl
  | succ n ih =>
      unfold mineLoop at h
      rcases hstop : interrupted newProof d with _ | ⟨stop, d'⟩
      · simp only [hstop] at h
        by_cases hvalid : blockchainIsValidBlockHash host c
            (blockHash host { block with proofOfWork := newProof }) = true
        · rw [if_pos hvalid] at h
          exact absurd h (by simp only [reduceCtorEq, not_false_eq_true])
        · rw [if_neg hvalid] at h
          exact ih _ _ _ h
      · simp only [hstop, Except.error.injEq] at h
        rw [← h]
        exact hint newProof d stop d' hstop

/-- A search ends the loop only if a mutex function fails. -/
theorem searchGoesOn_iff (host : Host) (args : MineBlocksArgs) (round : MiningRound)
    (nextBlock : Block) :
    (∀ code, (round.search host args nextBlock).returnCode = .error code →
      (searchGoesOn code).isSome = true) ↔
      round.conditions.lock = 0 ∧ round.conditions.unlock = 0 := by
  unfold MiningRound.search synchronizedBlockchainMineBlock
  by_cases hlock : round.conditions.lock = 0
  swap
  · rw [if_pos hlock]
    refine iff_of_false (fun h => ?_) fun h => hlock h.1
    exact absurd (h _ rfl) (by decide)
  by_cases hunlock : round.conditions.unlock = 0
  swap
  · rw [if_neg (not_not_intro hlock), if_pos hunlock]
    refine iff_of_false (fun h => ?_) fun h => hunlock h.2
    exact absurd (h _ rfl) (by decide)
  rw [if_neg (not_not_intro hlock), if_neg (not_not_intro hunlock)]
  refine iff_of_true (fun code h => ?_) ⟨hlock, hunlock⟩
  refine mineLoop_goesOn host _ _ _ ?_ _ _ _ _ code h
  -- A search is interrupted by a request or by a longer chain.
  intro p d code d' hstop
  by_cases hrequest : round.conditions.readings.shouldStop p = true
  · rw [if_pos hrequest, Option.some.injEq, Prod.mk.injEq] at hstop
    rw [← hstop.1]
    rfl
  rw [if_neg hrequest] at hstop
  by_cases hversion : round.conditions.readings.syncVersionCurrentlyMined p ≠
      round.conditions.readings.syncVersion p
  · rw [if_pos hversion, Option.some.injEq, Prod.mk.injEq] at hstop
    rw [← hstop.1]
    rfl
  · rw [if_neg hversion] at hstop
    exact absurd hstop (by simp only [reduceCtorEq, not_false_eq_true])

theorem blockchainAddBlock_ok_iff (alloc : Allocator) (call : Nat) (c : Blockchain)
    (block : Block) :
    (∃ c', blockchainAddBlock alloc call c block = .ok c') ↔
      alloc.grants call sizeofNode = true := by
  unfold blockchainAddBlock linkedListAppend
  by_cases h : alloc.grants call sizeofNode = true
  · simp only [h, if_true, Except.ok.injEq, exists_eq']
  · simp only [h, Bool.false_eq_true, if_false, reduceCtorEq, exists_false]

/-- The search and the append lead back to the head of the loop if the mutex
    functions do not fail and a block that was mined can be appended. -/
theorem searchAndAppend_ok_iff (host : Host) (args : MineBlocksArgs) (round : MiningRound)
    (c : Blockchain) (nextBlock : Block) :
    (∃ next, searchAndAppend host args round c nextBlock = .ok next) ↔
      (round.conditions.lock = 0 ∧ round.conditions.unlock = 0) ∧
        ((round.search host args nextBlock).returnCode = .ok () →
          round.conditions.alloc.grants 4 sizeofNode = true) := by
  rw [← searchGoesOn_iff host args round nextBlock]
  unfold searchAndAppend
  rcases hcode : (round.search host args nextBlock).returnCode with code | _
  · simp only [hcode, Except.error.injEq, forall_eq', reduceCtorEq, false_implies, and_true]
    rcases searchGoesOn code with _ | returnCode
    · simp only [reduceCtorEq, exists_false, Option.isSome_none, Bool.false_eq_true]
    · simp only [Except.ok.injEq, exists_eq', Option.isSome_some]
  · simp only [hcode, reduceCtorEq, false_implies, implies_true, true_and, forall_const]
    rw [← blockchainAddBlock_ok_iff round.conditions.alloc 4 c
      (round.search host args nextBlock).block]
    rcases blockchainAddBlock round.conditions.alloc 4 c
      (round.search host args nextBlock).block with code | c'
    · simp only [reduceCtorEq, exists_false]
    · simp only [Except.ok.injEq, exists_eq']

/-- A round goes back to the head of the loop exactly if no call in it fails. -/
theorem mineBlocksRound_goesOn_iff (host : Host) (args : MineBlocksArgs) (round : MiningRound)
    (c : Blockchain) :
    (∃ next, mineBlocksRound host args round c = some (.ok next)) ↔
      RoundSucceeds host args round c := by
  constructor
  · intro h
    rcases h with ⟨next, hround⟩
    unfold mineBlocksRound at hround
    rcases hswitch : switchChain round c with code | current
    · simp only [hswitch, Option.some.injEq, reduceCtorEq] at hround
    rcases (switchChain_ok_iff round c current).mp hswitch with ⟨rfl, hswitches⟩
    simp only [hswitch] at hround
    rcases hverify : blockchainVerify host (round.current c) with code | ⟨_ | _, first⟩
    · simp only [hverify, Option.some.injEq, reduceCtorEq] at hround
    · cases first <;> simp only [hverify, Option.some.injEq, reduceCtorEq] at hround
    simp only [hverify] at hround
    rcases hnext : prepareNextBlock host args round.conditions (round.current c) with
      code | nextBlock
    · simp only [hnext, Option.some.injEq, reduceCtorEq] at hround
    simp only [hnext, Option.some.injEq] at hround
    rcases (prepareNextBlock_ok_iff host args round.conditions _).mp ⟨nextBlock, hnext⟩ with
      ⟨hne, hlist, hsigns, hprepends, hcreates⟩
    rcases (searchAndAppend_ok_iff host args round _ nextBlock).mp ⟨next, hround⟩ with
      ⟨hsearches, happends⟩
    refine ⟨hswitches, ⟨first, hverify⟩, hne, hlist, hsigns, hprepends, hcreates, hsearches, ?_⟩
    intro block hblock
    rw [hnext, Except.ok.injEq] at hblock
    rw [← hblock]
    exact happends
  · intro h
    have hswitch := (switchChain_ok_iff round c _).mpr ⟨rfl, h.switches⟩
    rcases h.valid with ⟨first, hverify⟩
    rcases (prepareNextBlock_ok_iff host args round.conditions _).mpr
      ⟨h.notEmpty, h.list, h.signs, h.prepends, h.creates⟩ with ⟨nextBlock, hnext⟩
    rcases (searchAndAppend_ok_iff host args round (round.current c) nextBlock).mpr
      ⟨h.searches, h.appends nextBlock hnext⟩ with ⟨next, hround⟩
    refine ⟨next, ?_⟩
    simp only [mineBlocksRound, hswitch, hverify, hnext, hround]

/-- No call fails that the function makes at the head of the loop, unless it is
    asked to stop there. -/
def NothingFails (host : Host) (args : MineBlocksArgs) : MinerState → MiningRound → Prop
  | .mining blockchain _, round =>
    round.shouldStop = false → RoundSucceeds host args round blockchain
  | .returned _, _ => True

theorem mineBlocksEnd_some {alloc : Allocator} {result : MineBlocksResult} {s : MinerState}
    (h : mineBlocksEnd alloc result = some s) : s = .returned result := by
  unfold mineBlocksEnd at h
  by_cases hgrant : alloc.grants 5 sizeofReturnCode = true
  · rw [if_pos hgrant, Option.some.injEq] at h
    exact h.symm
  · rw [if_neg hgrant] at h
    exact absurd h (by simp only [reduceCtorEq, not_false_eq_true])

/-- What a step leads to: back to the head of the loop if no call fails, to a
    return with the flag set if it was asked to stop, and otherwise to a return
    without it. -/
theorem mineBlocksStep_cases (host : Host) (args : MineBlocksArgs) (c : Blockchain)
    (returnCode : Except ReturnCode Unit) (round : MiningRound) (s : MinerState)
    (h : mineBlocksStep host args (.mining c returnCode) round = some s) :
    (round.shouldStop = true ∧ s = .returned ⟨returnCode, true⟩) ∨
      (round.shouldStop = false ∧ RoundSucceeds host args round c ∧
        ∃ c' returnCode', s = .mining c' returnCode') ∨
      (round.shouldStop = false ∧ ¬ RoundSucceeds host args round c ∧
        ∃ code, s = .returned ⟨.error code, false⟩) := by
  rw [← mineBlocksRound_goesOn_iff]
  unfold mineBlocksStep at h
  simp only at h
  by_cases hstop : round.shouldStop = true
  · rw [if_pos hstop] at h
    exact Or.inl ⟨hstop, mineBlocksEnd_some h⟩
  rw [if_neg hstop] at h
  rw [Bool.not_eq_true] at hstop
  rcases hround : mineBlocksRound host args round c with _ | code | ⟨c', returnCode'⟩
  · simp only [hround, reduceCtorEq] at h
  · simp only [hround] at h
    refine Or.inr (Or.inr ⟨hstop, ?_, code, mineBlocksEnd_some h⟩)
    simp only [Option.some.injEq, reduceCtorEq, exists_false, not_false_eq_true]
  · simp only [hround, Option.some.injEq] at h
    exact Or.inr (Or.inl ⟨hstop, ⟨_, rfl⟩, c', returnCode', h.symm⟩)

/-- Nothing follows a return. -/
theorem run_returned (host : Host) (args : MineBlocksArgs) (rounds : List MiningRound)
    (r result : MineBlocksResult)
    (h : run (mineBlocksStep host args) (.returned r) rounds = some (.returned result)) :
    rounds = [] ∧ result = r := by
  cases rounds with
  | nil =>
      simp only [run, Option.some.injEq, MinerState.returned.injEq] at h
      exact ⟨rfl, h.symm⟩
  | cons round rounds =>
      exact absurd h (by simp only [run, mineBlocksStep, reduceCtorEq, not_false_eq_true])

/-- A run that returns from the head of the loop has set the flag exactly if no
    call failed in any of its rounds. -/
theorem run_exitReady_iff (host : Host) (args : MineBlocksArgs) (rounds : List MiningRound)
    (c : Blockchain) (returnCode : Except ReturnCode Unit) (result : MineBlocksResult)
    (h : run (mineBlocksStep host args) (.mining c returnCode) rounds = some (.returned result)) :
    result.exitReady = true ↔
      Meets (mineBlocksStep host args) (NothingFails host args) (.mining c returnCode) rounds := by
  induction rounds generalizing c returnCode with
  | nil => exact absurd h (by simp only [run, Option.some.injEq, reduceCtorEq, not_false_eq_true])
  | cons round rounds ih =>
      rcases (run_cons _ round rounds _).mp h with ⟨s, hstep, hrest⟩
      rw [Meets]
      rcases mineBlocksStep_cases host args c returnCode round s hstep with
        ⟨hstop, rfl⟩ | ⟨hstop, hsucceeds, c', returnCode', rfl⟩ | ⟨hstop, hfails, code, rfl⟩
      · rcases run_returned host args rounds _ result hrest with ⟨rfl, rfl⟩
        refine iff_of_true rfl ⟨fun hno => ?_, fun _ _ => trivial⟩
        rw [hstop] at hno
        exact absurd hno (by decide)
      · rw [ih c' returnCode' hrest]
        constructor
        · intro hmeets
          refine ⟨fun _ => hsucceeds, fun s' hs' => ?_⟩
          rw [hstep, Option.some.injEq] at hs'
          rw [← hs']
          exact hmeets
        · intro hmeets
          exact hmeets.2 _ hstep
      · rcases run_returned host args rounds _ result hrest with ⟨rfl, rfl⟩
        exact iff_of_false Bool.false_ne_true fun hmeets => hfails (hmeets.1 hstop)

/-- A successful iteration on the published chain is a round that goes back to
    the head of the loop with the chain it leaves. -/
theorem mineBlocksRound_of_iteration (host : Host) (args : MineBlocksArgs) (round : MiningRound)
    (hversion : round.syncVersionCurrentlyMined = round.syncVersion)
    (sync : SynchronizedBlockchain)
    (h : mineBlocksIteration host args round.conditions round.sync = some ⟨.ok (), sync⟩) :
    mineBlocksRound host args round round.sync.blockchain =
      some (.ok (sync.blockchain, .ok ())) := by
  have hswitch : switchChain round round.sync.blockchain = .ok round.sync.blockchain := by
    rw [switchChain, if_neg (not_not_intro hversion)]
  unfold mineBlocksIteration at h
  rcases hverify : blockchainVerify host round.sync.blockchain with code | ⟨_ | _, first⟩
  · simp only [hverify, Option.some.injEq, MiningOutcome.mk.injEq, reduceCtorEq, false_and] at h
  · cases first <;> simp only [hverify, Option.some.injEq, MiningOutcome.mk.injEq, reduceCtorEq,
      false_and] at h
  simp only [hverify] at h
  rcases hnext : prepareNextBlock host args round.conditions round.sync.blockchain with
    code | nextBlock
  · simp only [hnext, Option.some.injEq, MiningOutcome.mk.injEq, reduceCtorEq, false_and] at h
  simp only [hnext] at h
  simp only [mineBlocksRound, hswitch, hverify, hnext, searchAndAppend, MiningRound.search]
  -- The search is the one of the iteration, and so is the append.
  rcases hcode : (synchronizedBlockchainMineBlock host round.sync round.conditions.lock
    round.conditions.unlock nextBlock args.printProgress round.conditions.readings).returnCode with
    code | _
  · simp only [hcode, Option.some.injEq, MiningOutcome.mk.injEq, reduceCtorEq, false_and] at h
  simp only [hcode] at h
  rcases hadd : blockchainAddBlock round.conditions.alloc 4 round.sync.blockchain
    (synchronizedBlockchainMineBlock host round.sync round.conditions.lock
      round.conditions.unlock nextBlock args.printProgress round.conditions.readings).block with
    code | c'
  · simp only [hadd, Option.some.injEq, MiningOutcome.mk.injEq, reduceCtorEq, false_and] at h
  · simp only [hadd, Option.some.injEq, MiningOutcome.mk.injEq, true_and] at h
    rw [← h]

/-- A run of the function that returns, of any number of rounds, has set the
    flag exactly if neither the mutex functions around the first read of the
    published chain nor any call in any round failed. -/
theorem exitReady_iff (host : Host) (alloc : Allocator) (args : MineBlocksArgs)
    (lock unlock : Nat) (syncBlockchain : Blockchain) (rounds : List MiningRound)
    (start : MinerState) (result : MineBlocksResult)
    (hstart : mineBlocksStart alloc (some args) lock unlock syncBlockchain = some start)
    (hrun : run (mineBlocksStep host args) start rounds = some (.returned result)) :
    result.exitReady = true ↔
      lock = 0 ∧ unlock = 0 ∧
        Meets (mineBlocksStep host args) (NothingFails host args) start rounds := by
  simp only [mineBlocksStart] at hstart
  -- A return before the loop ends the run, without the flag.
  have hfailed : mineBlocksEnd alloc ⟨.error .failurePthreadFunction, false⟩ = some start →
      result.exitReady = false := by
    intro hend
    rw [mineBlocksEnd_some hend] at hrun
    rw [(run_returned host args rounds _ result hrun).2]
  by_cases hlock : lock = 0
  swap
  · rw [if_pos hlock] at hstart
    rw [hfailed hstart]
    exact iff_of_false (by decide) fun h => hlock h.1
  by_cases hunlock : unlock = 0
  swap
  · rw [if_neg (not_not_intro hlock), if_pos hunlock] at hstart
    rw [hfailed hstart]
    exact iff_of_false (by decide) fun h => hunlock h.2.1
  rw [if_neg (not_not_intro hlock), if_neg (not_not_intro hunlock), Option.some.injEq] at hstart
  rw [← hstart] at hrun ⊢
  rw [run_exitReady_iff host args rounds syncBlockchain (.ok ()) result hrun]
  exact ⟨fun h => ⟨hlock, hunlock, h⟩, fun h => h.2.2⟩

/-- A round on the published chain in which memory is granted and no lock
    fails. -/
def quietMiningRound (shouldStop : Bool) (sync : SynchronizedBlockchain) : MiningRound where
  shouldStop := shouldStop
  syncVersionCurrentlyMined := sync.version
  syncVersion := sync.version
  switchLock := 0
  switchUnlock := 0
  switchBlockchain := sync.blockchain
  signalLock := 0
  signalUnlock := 0
  sync := sync
  conditions :=
    { alloc := .generous
      transactionTime := 0
      blockTime := 0
      lock := 0
      unlock := 0
      readings := ⟨fun _ => shouldStop, fun _ => sync.version, fun _ => sync.version⟩ }

/-- The arguments of a miner with the sample keys. -/
def sampleMineBlocksArgs : MineBlocksArgs where
  minerPublicKey := Bytes.zero MAX_SSH_KEY_LENGTH
  minerPrivateKey := Bytes.zero MAX_SSH_KEY_LENGTH
  printProgress := false
  outfile := none

/-- A miner that is asked to stop when it starts sets the flag. -/
theorem exitReady_iff_sample :
    run (mineBlocksStep sampleHost sampleMineBlocksArgs) (.mining ⟨[sampleGenesis], 3⟩ (.ok ()))
        [quietMiningRound true ⟨⟨[sampleGenesis], 3⟩, 0⟩] = some (.returned ⟨.ok (), true⟩) ∧
      Meets (mineBlocksStep sampleHost sampleMineBlocksArgs)
        (NothingFails sampleHost sampleMineBlocksArgs) (.mining ⟨[sampleGenesis], 3⟩ (.ok ()))
        [quietMiningRound true ⟨⟨[sampleGenesis], 3⟩, 0⟩] :=
  ⟨rfl, ((exitReady_iff sampleHost .generous sampleMineBlocksArgs 0 0 ⟨[sampleGenesis], 3⟩
    [quietMiningRound true ⟨⟨[sampleGenesis], 3⟩, 0⟩] _ ⟨.ok (), true⟩ rfl rfl).mp rfl).2.2⟩

/-- A miner whose chain has no block returns without the flag. -/
theorem noBlocks_silent :
    ¬ ∀ (host : Host) (alloc : Allocator) (args : MineBlocksArgs) (lock unlock : Nat)
      (syncBlockchain : Blockchain) (rounds : List MiningRound) (start : MinerState)
      (result : MineBlocksResult),
      mineBlocksStart alloc (some args) lock unlock syncBlockchain = some start →
      run (mineBlocksStep host args) start rounds = some (.returned result) →
      result.exitReady = true := by
  intro h
  have hready := h sampleHost .generous sampleMineBlocksArgs 0 0 ⟨[], 3⟩
    [quietMiningRound false ⟨⟨[], 3⟩, 0⟩] _ ⟨.error .failureLinkedListEmpty, false⟩ rfl rfl
  exact Bool.false_ne_true hready

end LeoCoin
