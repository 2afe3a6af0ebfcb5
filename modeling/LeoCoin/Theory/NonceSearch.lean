import LeoCoin.Core.Blockchain
import LeoCoin.Library.BoundedSearch

/-!
# Nonce Search

The two miners search the nonces in order, and agree.

A miner is a bounded search. It asks whether it is to stop, which the
synchronized miner also is when the versions differ, and then whether the digest
of the block with the nonce passes. What is printed on the way has no part in
this. So both miners end at the first nonce where they are stopped or the digest
passes, and as long as the versions are equal it is the same one.

The block keeps the last nonce it was tried with, and nothing else in it
changes.

## Main definitions

* `noncePasses`: The digest of a block with a nonce passes the check.
* `triedBlock`, `minedResult`: What a search leaves.
* `stopRequest`, `synchronizedRequest`: What stops the two miners.
* `NonceReached`, `VersionsEqual`: How far a search gets.

## Theorems

* `mineLoop_search`: The loop is a bounded search.
* `blockchainMineBlock_search`, `synchronizedBlockchainMineBlock_search`: So are
  the miners.
* `miners_exact`: What the miners return.
-/

namespace LeoCoin

open BoundedSearch

/-- The digest of the block with this nonce passes the check of the chain. -/
def noncePasses (host : Host) (c : Blockchain) (block : Block) (p : Nat) : Bool :=
  blockchainIsValidBlockHash host c
    (blockHash host { block with proofOfWork := UInt64.ofNat p })

/-- A block for which as many nonces were tried. -/
def triedBlock (block : Block) : Nat → Block
  | 0 => block
  | p + 1 => { block with proofOfWork := UInt64.ofNat p }

/-- What a miner returns, without what it printed. -/
def MiningResult.outcome (result : MiningResult) : Except ReturnCode Unit × Block :=
  (result.returnCode, result.block)

/-- The code and the block a search leaves. -/
def minedResult (block : Block) : SearchEnd ReturnCode → Except ReturnCode Unit × Block
  | .interrupted p code => (.error code, triedBlock block p)
  | .found p => (.ok (), triedBlock block (p + 1))
  | .exhausted => (.error .failureCouldNotFindValidProofOfWork, triedBlock block numNonces)

/-- The request to stop, before a nonce. -/
def stopRequest (readings : Readings) (p : Nat) : Option ReturnCode :=
  if readings.shouldStop (UInt64.ofNat p) then some .failureStoppedEarly else none

/-- The versions are the same before a nonce. -/
def VersionsEqual (readings : Readings) (p : Nat) : Prop :=
  readings.syncVersionCurrentlyMined (UInt64.ofNat p) = readings.syncVersion (UInt64.ofNat p)

instance (readings : Readings) (p : Nat) : Decidable (VersionsEqual readings p) :=
  inferInstanceAs (Decidable (_ = _))

/-- The request to stop, or the detection of a longer chain. -/
def synchronizedRequest (readings : Readings) (p : Nat) : Option ReturnCode :=
  if readings.shouldStop (UInt64.ofNat p) then some .failureStoppedEarly
  else if ¬ VersionsEqual readings p then some .failureLongerBlockchainDetected
  else none

/-- No nonce before this one passes, and there was no request to stop. -/
def NonceReached (host : Host) (c : Blockchain) (block : Block) (readings : Readings) (p : Nat) :
    Prop :=
  ∀ q < p, readings.shouldStop (UInt64.ofNat q) = false ∧ noncePasses host c block q = false

/-- A result is that of an exact search: the least nonce that passes if no
    request to stop comes before it, and otherwise why there is none. -/
structure SearchExact (host : Host) (c : Blockchain) (block : Block) (readings : Readings)
    (result : MiningResult) : Prop where
  found : ∀ p < numNonces, noncePasses host c block p = true →
    (∀ q < p, noncePasses host c block q = false) →
    (∀ q ≤ p, readings.shouldStop (UInt64.ofNat q) = false) →
      result.outcome = (.ok (), { block with proofOfWork := UInt64.ofNat p })
  foundOnly : result.returnCode = .ok () → ∃ p < numNonces,
    noncePasses host c block p = true ∧ NonceReached host c block readings p ∧
      readings.shouldStop (UInt64.ofNat p) = false
  stopped : ∀ p < numNonces, readings.shouldStop (UInt64.ofNat p) = true →
    NonceReached host c block readings p → result.returnCode = .error .failureStoppedEarly
  exhausted : result.returnCode = .error .failureCouldNotFindValidProofOfWork →
    ∀ p < numNonces, noncePasses host c block p = false
  onlyNonce : ∃ nonce, result.block = { block with proofOfWork := nonce }

/-- A result of the synchronized miner is that of the other one as long as the
    versions are equal, and otherwise tells of the first difference. -/
structure SearchAgrees (host : Host) (c : Blockchain) (block : Block) (readings : Readings)
    (plain result : MiningResult) : Prop where
  equal : (∀ p < numNonces, NonceReached host c block readings p →
    readings.shouldStop (UInt64.ofNat p) = false → VersionsEqual readings p) →
      result.outcome = plain.outcome
  longer : ∀ p < numNonces, NonceReached host c block readings p →
    (∀ q < p, VersionsEqual readings q) → ¬ VersionsEqual readings p →
    readings.shouldStop (UInt64.ofNat p) = false →
      result.outcome = (.error .failureLongerBlockchainDetected, triedBlock block p)
  onlyNonce : ∃ nonce, result.block = { block with proofOfWork := nonce }

section Search

variable (host : Host) (c : Blockchain) (block : Block)

theorem triedBlock_proofOfWork (p : Nat) (nonce : UInt64) :
    { triedBlock block p with proofOfWork := nonce } =
      ({ block with proofOfWork := nonce } : Block) := by
  cases p with
  | zero => rfl
  | succ p => rfl

/-- The loop is a search: printing does not change where it ends. -/
theorem mineLoop_search (printProgress : Bool)
    (interrupted : UInt64 → Display → Option (ReturnCode × Display))
    (stop : Nat → Option ReturnCode)
    (hstop : ∀ q d, (interrupted (UInt64.ofNat q) d).map Prod.fst = stop q)
    (remaining p : Nat) (hcount : p + remaining = numNonces) (d : Display) :
    (mineLoop host c printProgress interrupted remaining (UInt64.ofNat p)
        (triedBlock block p) d).outcome =
      minedResult block (search stop (noncePasses host c block) remaining p) := by
  induction remaining generalizing p d with
  | zero =>
      rw [Nat.add_zero] at hcount
      rw [search, hcount]
      rfl
  | succ remaining ih =>
      rw [mineLoop, search, ← hstop p d]
      rcases interrupted (UInt64.ofNat p) d with _ | ⟨code, d'⟩
      · simp only [Option.map_none, triedBlock_proofOfWork]
        by_cases hpasses : noncePasses host c block p = true
        · have hvalid := hpasses
          rw [noncePasses] at hvalid
          rw [if_pos hvalid, if_pos hpasses]
          rfl
        · have hvalid := hpasses
          rw [noncePasses] at hvalid
          rw [if_neg hvalid, if_neg hpasses]
          -- The block now holds this nonce, and the next one is tried.
          have hnext : UInt64.ofNat p + 1 = UInt64.ofNat (p + 1) := (UInt64.ofNat_add p 1).symm
          rw [hnext]
          exact ih (p + 1) (by omega) _
      · simp only [Option.map_some]
        rfl

theorem blockchainMineBlock_search (printProgress : Bool) (readings : Readings) :
    (blockchainMineBlock host c block printProgress readings).outcome =
      minedResult block (search (stopRequest readings) (noncePasses host c block) numNonces 0) := by
  refine mineLoop_search host c block printProgress _ (stopRequest readings) ?_ numNonces 0
    (Nat.zero_add _) Display.start
  intro q d
  unfold stopRequest
  by_cases hrequest : readings.shouldStop (UInt64.ofNat q) = true
  · simp only [if_pos hrequest, Option.map_some]
  · simp only [if_neg hrequest, Option.map_none]

theorem synchronizedBlockchainMineBlock_search (sync : SynchronizedBlockchain)
    (printProgress : Bool) (readings : Readings) :
    (synchronizedBlockchainMineBlock host sync 0 0 block printProgress readings).outcome =
      minedResult block (search (synchronizedRequest readings)
        (noncePasses host sync.blockchain block) numNonces 0) := by
  rw [synchronizedBlockchainMineBlock, if_neg (not_not_intro rfl), if_neg (not_not_intro rfl)]
  refine mineLoop_search host sync.blockchain block printProgress _ (synchronizedRequest readings)
    ?_ numNonces 0 (Nat.zero_add _) Display.start
  intro q d
  unfold synchronizedRequest VersionsEqual
  by_cases hrequest : readings.shouldStop (UInt64.ofNat q) = true
  · simp only [if_pos hrequest, Option.map_some]
  · simp only [if_neg hrequest]
    by_cases hequal : readings.syncVersionCurrentlyMined (UInt64.ofNat q) =
        readings.syncVersion (UInt64.ofNat q)
    · simp only [hequal, not_true_eq_false, ne_eq, if_false, Option.map_none]
    · simp only [hequal, not_false_eq_true, ne_eq, if_true, Option.map_some]

/-- A search leaves everything in a block but the nonce. -/
theorem minedResult_block (result : MiningResult) (ending : SearchEnd ReturnCode)
    (h : result.outcome = minedResult block ending) :
    ∃ nonce, result.block = { block with proofOfWork := nonce } := by
  have htried : ∀ p, ∃ nonce, triedBlock block p = { block with proofOfWork := nonce } := by
    intro p
    cases p with
    | zero => exact ⟨block.proofOfWork, rfl⟩
    | succ p => exact ⟨UInt64.ofNat p, rfl⟩
  have hblock : result.block = (minedResult block ending).2 := congrArg Prod.snd h
  rw [hblock]
  cases ending with
  | interrupted p code => exact htried p
  | found p => exact htried (p + 1)
  | exhausted => exact htried numNonces

variable (readings : Readings)

/-- A nonce is clear if there is no request to stop and it does not pass. -/
theorem clear_stopRequest_iff (q : Nat) :
    Clear (stopRequest readings) (noncePasses host c block) q ↔
      readings.shouldStop (UInt64.ofNat q) = false ∧ noncePasses host c block q = false := by
  unfold Clear stopRequest
  by_cases hrequest : readings.shouldStop (UInt64.ofNat q) = true
  · simp only [hrequest, if_true, reduceCtorEq, Bool.true_eq_false, false_and]
  · simp only [hrequest, if_false, Bool.false_eq_true]

/-- If the versions are equal, only a request stops the synchronized miner. -/
theorem synchronizedRequest_eq (q : Nat)
    (hequal : readings.shouldStop (UInt64.ofNat q) = false → VersionsEqual readings q) :
    synchronizedRequest readings q = stopRequest readings q := by
  unfold synchronizedRequest stopRequest
  by_cases hrequest : readings.shouldStop (UInt64.ofNat q) = true
  · rw [if_pos hrequest, if_pos hrequest]
  · rw [if_neg hrequest, if_neg hrequest,
      if_neg (not_not_intro (hequal (Bool.eq_false_of_not_eq_true hrequest)))]

theorem blockchainMineBlock_exact (printProgress : Bool) :
    SearchExact host c block readings
      (blockchainMineBlock host c block printProgress readings) := by
  have hsearch := blockchainMineBlock_search host c block printProgress readings
  have hcode : (blockchainMineBlock host c block printProgress readings).returnCode = _ :=
    congrArg Prod.fst hsearch
  have hclear : ∀ p, (∀ q < p, Clear (stopRequest readings) (noncePasses host c block) q) ↔
      NonceReached host c block readings p := by
    intro p
    refine forall₂_congr ?_
    intro q _
    exact clear_stopRequest_iff host c block readings q
  refine ⟨?_, ?_, ?_, ?_, minedResult_block block _ _ hsearch⟩
  · intro p hp hpasses hleast hstop
    have hreached := (hclear p).mpr fun q hq => ⟨hstop q (Nat.le_of_lt hq), hleast q hq⟩
    have hrequest : stopRequest readings p = none :=
      if_neg (by rw [hstop p (Nat.le_refl p)]; exact Bool.false_ne_true)
    rw [hsearch, search_found hp hreached hrequest hpasses]
    rfl
  · intro hok
    rw [hcode] at hok
    cases hend : search (stopRequest readings) (noncePasses host c block) numNonces 0 with
    | interrupted p code =>
        rw [hend] at hok
        exact absurd hok (by simp only [minedResult, reduceCtorEq, not_false_eq_true])
    | found p =>
        rcases search_found_iff.mp hend with ⟨hp, hbefore, hrequest, hpasses⟩
        refine ⟨p, hp, hpasses, (hclear p).mp hbefore, ?_⟩
        rw [stopRequest, ite_eq_right_iff] at hrequest
        refine Bool.eq_false_of_not_eq_true ?_
        intro htrue
        exact absurd (hrequest htrue) (by simp only [reduceCtorEq, not_false_eq_true])
    | exhausted =>
        rw [hend] at hok
        exact absurd hok (by simp only [minedResult, reduceCtorEq, not_false_eq_true])
  · intro p hp hrequest hreached
    have hstop : stopRequest readings p = some .failureStoppedEarly := if_pos hrequest
    rw [hcode, search_interrupted hp ((hclear p).mpr hreached) _ hstop]
    rfl
  · intro hnone
    rw [hcode] at hnone
    cases hend : search (stopRequest readings) (noncePasses host c block) numNonces 0 with
    | interrupted p code =>
        rcases (search_interrupted_iff code).mp hend with ⟨_, _, hrequest⟩
        -- Only a request to stop interrupts this search.
        rw [stopRequest, Option.ite_none_right_eq_some, Option.some.injEq] at hrequest
        rw [hend, ← hrequest.2] at hnone
        exact absurd hnone (by simp only [minedResult, Except.error.injEq, reduceCtorEq,
          not_false_eq_true])
    | found p =>
        rw [hend] at hnone
        exact absurd hnone (by simp only [minedResult, reduceCtorEq, not_false_eq_true])
    | exhausted =>
        intro p hp
        exact ((clear_stopRequest_iff host c block readings p).mp
          (search_exhausted_iff.mp hend p hp)).2

theorem synchronizedBlockchainMineBlock_agrees (sync : SynchronizedBlockchain)
    (printProgress printProgress' : Bool) :
    SearchAgrees host sync.blockchain block readings
      (blockchainMineBlock host sync.blockchain block printProgress readings)
      (synchronizedBlockchainMineBlock host sync 0 0 block printProgress' readings) := by
  have hsearch := blockchainMineBlock_search host sync.blockchain block printProgress readings
  have hsync := synchronizedBlockchainMineBlock_search host block sync printProgress' readings
  refine ⟨?_, ?_, minedResult_block block _ _ hsync⟩
  · intro hequal
    rw [hsync, hsearch]
    congr 1
    refine search_congr ?_
    intro p hp hbefore
    refine synchronizedRequest_eq readings p (hequal p hp ?_)
    intro q hq
    exact (clear_stopRequest_iff host sync.blockchain block readings q).mp (hbefore q hq)
  · intro p hp hreached hbefore hdiffer hrequest
    have hstop : synchronizedRequest readings p = some .failureLongerBlockchainDetected := by
      rw [synchronizedRequest, if_neg (by rw [hrequest]; exact Bool.false_ne_true),
        if_pos hdiffer]
    have hclear : ∀ q < p, Clear (synchronizedRequest readings)
        (noncePasses host sync.blockchain block) q := by
      intro q hq
      rw [Clear, synchronizedRequest_eq readings q (fun _ => hbefore q hq)]
      exact (clear_stopRequest_iff host sync.blockchain block readings q).mpr (hreached q hq)
    rw [hsync, search_interrupted hp hclear _ hstop]
    rfl

end Search

/-- The search of `blockchain_mine_block` is exact, and what it prints does not
    change what it returns. The synchronized miner on a published chain agrees
    with it, whatever either prints, and returns a failure with the block as it
    was if the mutex cannot be locked and unlocked. -/
theorem miners_exact (host : Host) (c : Blockchain) (block : Block) (readings : Readings)
    (printProgress : Bool) :
    SearchExact host c block readings
      (blockchainMineBlock host c block printProgress readings) ∧
    (∀ printProgress', (blockchainMineBlock host c block printProgress' readings).outcome =
      (blockchainMineBlock host c block printProgress readings).outcome) ∧
    ∀ sync : SynchronizedBlockchain, sync.blockchain = c → ∀ printProgress',
      SearchAgrees host c block readings
        (blockchainMineBlock host c block printProgress readings)
        (synchronizedBlockchainMineBlock host sync 0 0 block printProgress' readings) ∧
      (∀ lock unlock, (synchronizedBlockchainMineBlock host sync lock unlock block printProgress'
          readings).outcome =
        (synchronizedBlockchainMineBlock host sync lock unlock block printProgress
          readings).outcome) ∧
      ∀ lock unlock, ¬ (lock = 0 ∧ unlock = 0) →
        (synchronizedBlockchainMineBlock host sync lock unlock block printProgress'
          readings).outcome = (.error .failurePthreadFunction, block) := by
  refine ⟨blockchainMineBlock_exact host c block readings printProgress, ?_, ?_⟩
  · intro printProgress'
    rw [blockchainMineBlock_search, blockchainMineBlock_search]
  · rintro sync rfl printProgress'
    have hfails : ∀ printProgress lock unlock, ¬ (lock = 0 ∧ unlock = 0) →
        (synchronizedBlockchainMineBlock host sync lock unlock block printProgress
          readings).outcome = (.error .failurePthreadFunction, block) := by
      intro printProgress lock unlock hfail
      unfold synchronizedBlockchainMineBlock
      by_cases hlock : lock = 0
      · rw [if_neg (not_not_intro hlock), if_pos (fun hunlock => hfail ⟨hlock, hunlock⟩)]
        rfl
      · rw [if_pos hlock]
        rfl
    refine ⟨synchronizedBlockchainMineBlock_agrees host block readings sync printProgress
      printProgress', ?_, hfails printProgress'⟩
    intro lock unlock
    by_cases hmutex : lock = 0 ∧ unlock = 0
    · rcases hmutex with ⟨rfl, rfl⟩
      rw [synchronizedBlockchainMineBlock_search, synchronizedBlockchainMineBlock_search]
    · rw [hfails printProgress' lock unlock hmutex, hfails printProgress lock unlock hmutex]

end LeoCoin
