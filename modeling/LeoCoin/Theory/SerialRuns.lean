import LeoCoin.Theory.Node
import LeoCoin.Theory.NonceSearch
import LeoCoin.Theory.Ownership
import LeoCoin.Theory.Sequential

/-!
# Serial Runs

What the two threads publish, they could publish one after the other.

An iteration of the miner takes many steps, and so does a request. The miner
verifies a chain, prepares a block, tries one nonce after the other and appends,
and between any two of these steps the server may switch. Of all these steps two
can be seen in what is published: the switch, and an append to the published
chain. At the switch the whole request takes effect, because the verdict on the
peer's chain was reached before and nothing writes to that chain. At the append
a whole iteration takes effect, because only the miner writes to the chain it
mines on, so the chain is still the one that was verified and prepared for, and
the nonces that were passed over do not pass.

So every run of the threads has a run of whole iterations and whole requests
that publishes the same. The requests in it are requests that the server
accepted, in the order in which it accepted them.

## Main definitions

* `Attempt`, `Found`: A block with the nonces tried so far, and with its nonce.
* `MinerPoint.Keeps`, `ServerPoint.Keeps`: What is known at each point.
* `ServerPoint.pending`: The request that may still take effect.
* `Serial`: What holds of both threads.
* `MiningConditions.uninterrupted`: The conditions without an interruption.
* `Serialized`: A serial run publishes what these steps publish.

## Theorems

* `minerAdvance_keeps`: The miner keeps what is known.
* `append_serial`: An append is an iteration.
* `serverStep_serial`: A switch is a request.
* `Serial.step`: A step is nothing, or one event.
* `threads_serialized`: The serial run of a run.
-/

namespace LeoCoin

open BoundedSearch

/-- The block was prepared for the end of a chain that is reported valid, and
    this many nonces were tried without success. -/
def Attempt (host : Host) (args : MineBlocksArgs) (c : Blockchain) (block : Block) (p : Nat) :
    Prop :=
  ReportsValid host c ∧ ∃ m prepared, prepareNextBlock host args m c = .ok prepared ∧
    block = triedBlock prepared p ∧ ∀ q < p, noncePasses host c prepared q = false

/-- The block has the first nonce that passes. -/
def Found (host : Host) (args : MineBlocksArgs) (c : Blockchain) (block : Block) : Prop :=
  ReportsValid host c ∧ ∃ m prepared p, prepareNextBlock host args m c = .ok prepared ∧
    block = triedBlock prepared (p + 1) ∧ p < numNonces ∧ noncePasses host c prepared p = true ∧
    ∀ q < p, noncePasses host c prepared q = false

/-- What is known of the miner's chain and its block. -/
def MinerPoint.Keeps (host : Host) (args : MineBlocksArgs) (heap : Nat → Blockchain) :
    MinerPoint → Prop
  | .prepare c => ReportsValid host (heap c)
  | .lookUp c block => Attempt host args (heap c) block 0
  | .nonceTest search =>
    Attempt host args (heap search.blockchain) search.block search.newProof.toNat
  | .nonceLoadMined search | .nonceLoadVersion search _ | .tryNonce search =>
    Attempt host args (heap search.blockchain) search.block search.newProof.toNat ∧
      search.newProof.toNat < numNonces
  | .append c block => Found host args (heap c) block
  | _ => True

/-- What is known of the peer's chain. -/
def ServerPoint.Keeps (host : Host) (heap : Nat → Blockchain) : ServerPoint → Prop
  | .verifying r peer =>
    ∃ command, receivePeerBlockchain host.byteOrder r = some (.ok (command, heap peer))
  | .deciding r peer isValid =>
    (∃ command, receivePeerBlockchain host.byteOrder r = some (.ok (command, heap peer))) ∧
      ∃ verdict, blockchainVerify host (heap peer) = .ok verdict ∧
        verdict.isValidBlockchain = isValid
  | _ => True

/-- The request that the server has received and not yet decided on. -/
def ServerPoint.pending : ServerPoint → List Request
  | .verifying r _ | .deciding r _ _ => [r]
  | _ => []

/-- The request an event handles. -/
def Event.handled : Event → Option Request
  | .mine _ => none
  | .request r => some r

/-- The request a step accepts. -/
def ThreadAction.accepted : ThreadAction → Option Request
  | .accept r => some r
  | _ => none

/-- What holds of both threads, with the chains of the miner of one
    difficulty. -/
structure Serial (host : Host) (args : MineBlocksArgs) (d : UInt64) (s : Threads) : Prop where
  accounted : Accounted s
  published : (s.heap s.syncBlockchain).numLeadingZeroBytesRequiredInBlockHash = d
  chains : ∀ c ∈ s.miner.blockchains, (s.heap c).numLeadingZeroBytesRequiredInBlockHash = d
  miner : s.miner.Keeps host args s.heap
  server : s.server.Keeps host s.heap

section Keeping

variable {host : Host} {args : MineBlocksArgs}

/-- What is known depends on the chains that are pointed to. -/
theorem MinerPoint.Keeps.congr {heap heap' : Nat → Blockchain} {point : MinerPoint}
    (h : point.Keeps host args heap) (hheap : ∀ c ∈ point.blockchains, heap' c = heap c) :
    point.Keeps host args heap' := by
  cases point with
  | prepare c | lookUp c block | append c block =>
      have hc := hheap c List.mem_cons_self
      rw [MinerPoint.Keeps] at h ⊢
      rwa [hc]
  | nonceTest search | nonceLoadMined search | nonceLoadVersion search mined | tryNonce search =>
      have hc := hheap search.blockchain List.mem_cons_self
      rw [MinerPoint.Keeps] at h ⊢
      rwa [hc]
  | _ => trivial

theorem ServerPoint.Keeps.congr {heap heap' : Nat → Blockchain} {point : ServerPoint}
    (h : point.Keeps host heap) (hheap : ∀ c ∈ point.blockchains, heap' c = heap c) :
    point.Keeps host heap' := by
  cases point with
  | verifying r peer | deciding r peer isValid =>
      have hpeer := hheap peer List.mem_cons_self
      rw [ServerPoint.Keeps] at h ⊢
      rwa [hpeer]
  | _ => trivial

/-- The check of a nonce depends on the difficulty only. -/
theorem accepts_eq_noncePasses (search : Search) (c c' : Blockchain) (prepared : Block)
    (hblock : search.block = triedBlock prepared search.newProof.toNat)
    (hsame : c.numLeadingZeroBytesRequiredInBlockHash =
      c'.numLeadingZeroBytesRequiredInBlockHash) :
    search.accepts host c' = noncePasses host c prepared search.newProof.toNat := by
  rw [Search.accepts, noncePasses, Search.nextBlock, hblock, triedBlock_proofOfWork,
    UInt64.ofNat_toNat, blockchainIsValidBlockHash, blockchainIsValidBlockHash, hsame]

/-- The miner keeps what is known of its chain and its block. -/
theorem minerAdvance_keeps (s : Threads) (shouldStop : Bool) (m : MiningConditions)
    (point next : MinerPoint) (d : UInt64)
    (hd : ∀ c ∈ point.blockchains, (s.heap c).numLeadingZeroBytesRequiredInBlockHash = d)
    (hkeeps : point.Keeps host args s.heap)
    (h : minerAdvance host args s shouldStop m point = some next) :
    next.Keeps host args s.heap := by
  have hmove := minerAdvance_move host args s shouldStop m point next h
  cases hmove with
  -- The chain is reported valid from here on.
  | verifies c =>
      rw [minerAdvance] at h
      rcases hverify : blockchainVerify host (s.heap c) with code | ⟨_ | _, first⟩
      · simp only [hverify, Option.some.injEq, reduceCtorEq] at h
      · cases first <;> simp only [hverify, Option.some.injEq, reduceCtorEq] at h
      · exact ⟨_, hverify, rfl⟩
  -- No nonce has been refused yet.
  | prepares c block =>
      rw [minerAdvance] at h
      rcases hnext : prepareNextBlock host args m (s.heap c) with code | nextBlock
      · simp only [hnext, Option.some.injEq, reduceCtorEq] at h
      · simp only [hnext, Option.some.injEq, MinerPoint.lookUp.injEq, true_and] at h
        subst h
        exact ⟨hkeeps, m, nextBlock, hnext, rfl, fun q hq => absurd hq (Nat.not_lt_zero q)⟩
  | looksUp c block => exact hkeeps
  | tries search =>
      rw [minerAdvance] at h
      by_cases hcount : search.newProof.toNat ≥ numNonces
      · simp only [if_pos hcount, Option.some.injEq, reduceCtorEq] at h
      · exact ⟨hkeeps, Nat.lt_of_not_le hcount⟩
  | loadsMinedAgain search => exact hkeeps
  | current search => exact hkeeps
  | finds search haccepts =>
      rcases hkeeps with ⟨⟨hvalid, m', prepared, hprepare, hblock, hrefused⟩, hcount⟩
      -- The zeros are looked up in the chain that was published.
      have hsame := (hd search.blockchain List.mem_cons_self).trans
        (hd search.syncBlockchain (List.mem_cons_of_mem _ List.mem_cons_self)).symm
      rw [accepts_eq_noncePasses search _ _ prepared hblock hsame] at haccepts
      refine ⟨hvalid, m', prepared, search.newProof.toNat, hprepare, ?_, hcount, haccepts, hrefused⟩
      rw [Search.nextBlock, hblock, triedBlock_proofOfWork, triedBlock, UInt64.ofNat_toNat]
  | misses search block newProof =>
      rcases hkeeps with ⟨⟨hvalid, m', prepared, hprepare, hblock, hrefused⟩, hcount⟩
      have hsame := (hd search.blockchain List.mem_cons_self).trans
        (hd search.syncBlockchain (List.mem_cons_of_mem _ List.mem_cons_self)).symm
      rw [minerAdvance] at h
      by_cases haccepts : search.accepts host (s.heap search.syncBlockchain) = true
      · simp only [if_pos haccepts, Option.some.injEq, reduceCtorEq] at h
      rw [if_neg haccepts, Option.some.injEq, MinerPoint.nonceTest.injEq, Search.mk.injEq] at h
      rcases h with ⟨-, -, rfl, rfl⟩
      rw [accepts_eq_noncePasses search _ _ prepared hblock hsame] at haccepts
      have hnext : (search.newProof + 1).toNat = search.newProof.toNat + 1 := by
        unfold numNonces at hcount
        rw [UInt64.toNat_add, UInt64.toNat_one]
        omega
      refine ⟨hvalid, m', prepared, hprepare, ?_, ?_⟩
      · rw [hnext, triedBlock, Search.nextBlock, hblock, triedBlock_proofOfWork,
          UInt64.ofNat_toNat]
      · intro q hq
        rw [hnext] at hq
        -- The nonces before, and the one that was refused now.
        rcases Nat.lt_succ_iff_lt_or_eq.mp hq with hlt | rfl
        · exact hrefused q hlt
        · exact Bool.eq_false_of_not_eq_true haccepts
  | _ => trivial

end Keeping

section Events

variable (host : Host) (args : MineBlocksArgs) (printProgress : Bool)

/-- The same conditions up to the append, without an interruption and with the
    append granted. -/
def MiningConditions.uninterrupted (m : MiningConditions) : MiningConditions where
  alloc :=
    { grants := fun k n => if k < 4 then m.alloc.grants k n else Allocator.generous.grants k n
      bounded := by
        intro k n h
        split at h
        · exact m.alloc.bounded k n h
        · exact Allocator.generous.bounded k n h }
  transactionTime := m.transactionTime
  blockTime := m.blockTime
  lock := 0
  unlock := 0
  readings := ⟨fun _ => false, fun _ => 0, fun _ => 0⟩

theorem prepareNextBlock_uninterrupted (m : MiningConditions) (c : Blockchain) :
    prepareNextBlock host args m.uninterrupted c = prepareNextBlock host args m c := by
  simp only [prepareNextBlock, MiningConditions.uninterrupted, linkedListCreate,
    transactionCreate, linkedListPrepend, blockCreate, Nat.reduceLT, if_true]

/-- A block with the first nonce that passes is what an iteration comes to. -/
theorem mineBlocksIteration_found (sync : SynchronizedBlockchain) (block : Block)
    (h : Found host args sync.blockchain block) :
    ∃ m, mineBlocksIteration host args m sync = some ⟨.ok (), { sync with
      blockchain := { sync.blockchain with
        blockList := sync.blockchain.blockList ++ [block] } }⟩ := by
  rcases h with ⟨⟨⟨valid, first⟩, hverify, hvalid⟩, m, prepared, p, hprepare, hblock, hp, hpasses,
    hrefused⟩
  simp only at hvalid
  subst hvalid
  -- The iteration finds the same nonce, as it is the first that passes.
  have hsearch := synchronizedBlockchainMineBlock_search host prepared sync args.printProgress
    m.uninterrupted.readings
  have hstop : ∀ q, synchronizedRequest m.uninterrupted.readings q = none := fun q => rfl
  rw [search_found hp (fun q hq => ⟨hstop q, hrefused q hq⟩) (hstop p) hpasses, minedResult,
    ← hblock] at hsearch
  have hcode : (synchronizedBlockchainMineBlock host sync m.uninterrupted.lock
      m.uninterrupted.unlock prepared args.printProgress m.uninterrupted.readings).returnCode =
        .ok () := congrArg Prod.fst hsearch
  have hmined : (synchronizedBlockchainMineBlock host sync m.uninterrupted.lock
      m.uninterrupted.unlock prepared args.printProgress m.uninterrupted.readings).block =
        block := congrArg Prod.snd hsearch
  have hadd : blockchainAddBlock m.uninterrupted.alloc 4 sync.blockchain block =
      .ok { sync.blockchain with blockList := sync.blockchain.blockList ++ [block] } := rfl
  refine ⟨m.uninterrupted, ?_⟩
  unfold mineBlocksIteration
  simp only [hverify, prepareNextBlock_uninterrupted, hprepare, hcode, hmined, hadd]

/-- A request whose chain was received and verified does what the decision
    does. -/
theorem consensusStep_received (sync : SynchronizedBlockchain) (r : Request)
    (command : CommandSendBlockchain) (peer : Blockchain) (verdict : Verdict)
    (hrecv : receivePeerBlockchain host.byteOrder r = some (.ok (command, peer)))
    (hverify : blockchainVerify host peer = .ok verdict) (hlock : r.lock = 0) :
    consensusStep host printProgress sync r =
      some (considerPeerBlockchain printProgress sync peer verdict.isValidBlockchain).1 := by
  unfold consensusStep handleOneConsensusRequest
  simp only [hrecv, hverify, hlock, ne_eq, not_true_eq_false, if_false, Option.map_some]
  rw [(replyWithBlockchain_spec host.byteOrder r command _ _).1]

/-- A step of the server keeps what is known of the peer's chain. It publishes
    nothing, or the request takes effect. -/
theorem serverStep_serial (s s' : Threads) (hkeeps : s.server.Keeps host s.heap)
    (h : serverStep host s = some s') :
    s'.server.Keeps host s'.heap ∧ ∃ es,
      Run.run (nodeStep host args printProgress) s.sync es = some s'.sync ∧
      (es.filterMap Event.handled ++ s'.server.pending).Sublist s.server.pending := by
  cases hpoint : s.server with
  | idle => exact absurd h (by simp only [serverStep, hpoint, reduceCtorEq, not_false_eq_true])
  | blocked => exact absurd h (by simp only [serverStep, hpoint, reduceCtorEq, not_false_eq_true])
  | verifying r peer =>
      rw [hpoint] at hkeeps
      rcases hverify : blockchainVerify host (s.heap peer) with code | verdict
      · simp only [serverStep, hpoint, hverify, Option.some.injEq] at h
        subst h
        exact ⟨trivial, [], rfl, List.nil_sublist _⟩
      · simp only [serverStep, hpoint, hverify, Option.some.injEq] at h
        subst h
        exact ⟨⟨hkeeps, verdict, hverify, rfl⟩, [], rfl, List.Sublist.refl _⟩
  | declined peer =>
      simp only [serverStep, hpoint, Option.some.injEq] at h
      subst h
      exact ⟨trivial, [], rfl, List.nil_sublist _⟩
  | deciding r peer isValid =>
      rw [hpoint] at hkeeps
      rcases hkeeps with ⟨⟨command, hrecv⟩, verdict, hverify, hverdict⟩
      -- Whatever is decided, the request is not pending any more.
      have hdone : s'.server = .idle ∨ ∃ c, s'.server = .declined c := by
        simp only [serverStep, hpoint] at h
        split at h
        · exact Or.inl (by rw [← Option.some.inj h])
        · split at h
          · exact Or.inl (by rw [← Option.some.inj h])
          · split at h
            · exact Or.inl (by rw [← Option.some.inj h])
            · exact Or.inr ⟨_, by rw [← Option.some.inj h]⟩
      have hnone : s'.server.pending = [] ∧ s'.server.Keeps host s'.heap := by
        rcases hdone with hidle | ⟨c, hdeclined⟩
        · rw [hidle]
          exact ⟨rfl, trivial⟩
        · rw [hdeclined]
          exact ⟨rfl, trivial⟩
      refine ⟨hnone.2, ?_⟩
      rw [hnone.1]
      rcases serverStep_cases host s s' h with
        ⟨point, _, _, rfl⟩ | ⟨r', peer', isValid', hdeciding, hswitches, rfl⟩ | ⟨c, _, rfl⟩
      · exact ⟨[], rfl, List.nil_sublist _⟩
      · rw [hpoint, ServerPoint.deciding.injEq] at hdeciding
        rcases hdeciding with ⟨rfl, rfl, rfl⟩
        rw [Threads.switches, hpoint, Bool.and_eq_true, beq_iff_eq, ← hverdict] at hswitches
        -- The request takes effect where the server decides.
        have hstep := consensusStep_received host printProgress s.sync r command _ verdict hrecv
          hverify hswitches.1
        have hpublished : (considerPeerBlockchain printProgress s.sync (s.heap peer)
            verdict.isValidBlockchain).1 = ⟨s.heap peer, s.syncVersion + 1⟩ :=
          congrArg Prod.fst (if_pos hswitches.2)
        rw [hpublished] at hstep
        exact ⟨[.request r], (Run.run_cons _ _ _ _).mpr ⟨_, hstep, rfl⟩, List.Sublist.refl _⟩
      · exact ⟨[], rfl, List.nil_sublist _⟩

/-- A step of the miner publishes nothing, or an iteration takes effect. -/
theorem append_serial {d : UInt64} {s s' : Threads} (h : Serial host args d s) (shouldStop : Bool)
    (m : MiningConditions) (hstep : minerStep host args s shouldStop m = some s') :
    s'.server = s.server ∧ ∃ es, Run.run (nodeStep host args printProgress) s.sync es =
      some s'.sync ∧ es.filterMap Event.handled = [] := by
  rcases minerStep_cases host args s s' shouldStop m hstep with
    ⟨next, _, rfl⟩ | ⟨old, c, _, rfl⟩ | ⟨c, version, _, rfl⟩ | ⟨c, block, hpoint, ⟨code, rfl⟩ | rfl⟩
  · exact ⟨rfl, [], rfl, rfl⟩
  · exact ⟨rfl, [], rfl, rfl⟩
  · exact ⟨rfl, [], rfl, rfl⟩
  · exact ⟨rfl, [], rfl, rfl⟩
  by_cases hpublished : s.syncBlockchain = c
  · have hfound := h.miner
    rw [hpoint, ← hpublished] at hfound
    rcases mineBlocksIteration_found host args s.sync block hfound with ⟨m', hmined⟩
    refine ⟨rfl, [.mine m'], (Run.run_cons _ _ _ _).mpr ⟨_, ?_, rfl⟩, rfl⟩
    rw [nodeStep, hmined, Option.map_some]
    simp only [Threads.sync, ← hpublished, Function.update_self]
  · refine ⟨rfl, [], ?_, rfl⟩
    simp only [Run.run, Threads.sync, Function.update_of_ne hpublished]

/-- A step of the miner keeps the invariant. -/
theorem Serial.minerStep {d : UInt64} {s s' : Threads} (h : Serial host args d s)
    (shouldStop : Bool) (m : MiningConditions)
    (hstep : minerStep host args s shouldStop m = some s') : Serial host args d s' := by
  have haccounted := h.accounted.minerStep host args shouldStop m hstep
  have hkeeps : s'.miner.Keeps host args s'.heap := by
    unfold LeoCoin.minerStep at hstep
    split at hstep
    · rw [← Option.some.inj hstep]
      trivial
    · rw [← Option.some.inj hstep]
      trivial
    · split at hstep
      · rw [← Option.some.inj hstep]
        trivial
      · rw [← Option.some.inj hstep]
        trivial
    · rcases Option.map_eq_some_iff.mp hstep with ⟨next, hnext, rfl⟩
      exact minerAdvance_keeps s shouldStop m _ next d h.chains h.miner hnext
  rcases minerStep_cases host args s s' shouldStop m hstep with
    ⟨next, hmove, rfl⟩ | ⟨old, c, hpoint, rfl⟩ | ⟨c, version, hpoint, rfl⟩ |
      ⟨c, block, hpoint, ⟨code, rfl⟩ | rfl⟩
  · refine ⟨haccounted, h.published, ?_, hkeeps, h.server⟩
    intro e he
    rcases hmove.blockchains e he with rfl | hmem
    · exact h.published
    · exact h.chains e hmem
  · exact ⟨haccounted, h.published, fun e he => h.chains e (by
      rw [hpoint]
      exact List.mem_cons_of_mem _ he), hkeeps, h.server⟩
  · exact ⟨haccounted, h.published, fun e he => h.chains e (by rw [hpoint]; exact he), hkeeps,
      h.server⟩
  · exact ⟨haccounted, h.published, fun _ he => absurd he List.not_mem_nil, hkeeps, h.server⟩
  · -- The chain gets a block, and keeps its difficulty.
    have hsame : ∀ e, (s.heap e).numLeadingZeroBytesRequiredInBlockHash = d →
        (Function.update s.heap c { s.heap c with
          blockList := (s.heap c).blockList ++ [block] } e).numLeadingZeroBytesRequiredInBlockHash
            = d := by
      intro e he
      by_cases hec : e = c
      · subst hec
        rw [Function.update_self]
        exact he
      · rw [Function.update_of_ne hec]
        exact he
    refine ⟨haccounted, hsame _ h.published,
      fun e he => hsame e (h.chains e (by rw [hpoint]; exact he)), hkeeps, ?_⟩
    refine h.server.congr fun peer hpeer => Function.update_of_ne ?_ _ _
    -- The peer's chain is not one the miner points to.
    rintro rfl
    rcases h.accounted.server peer hpeer with ⟨_, hpub, hdead⟩
    rcases h.accounted.miner peer (by rw [hpoint]; exact List.mem_cons_self) with heq | hmem
    · exact hpub heq
    · exact hdead hmem

/-- A step of the server keeps the invariant. -/
theorem Serial.serverStep {d : UInt64} {s s' : Threads} (h : Serial host args d s)
    (hstep : serverStep host s = some s') : Serial host args d s' := by
  have haccounted := h.accounted.serverStep host hstep
  have hkeeps := (serverStep_serial host args args.printProgress s s' h.server hstep).1
  rcases serverStep_cases host s s' hstep with
    ⟨point, _, _, rfl⟩ | ⟨r, peer, isValid, hpoint, hswitches, rfl⟩ | ⟨peer, _, rfl⟩
  · exact ⟨haccounted, h.published, h.chains, h.miner, hkeeps⟩
  · rw [Threads.switches, hpoint, Bool.and_eq_true] at hswitches
    rcases (switchesToPeerBlockchain_iff _ _ _).mp hswitches.2 with ⟨_, _, hsame⟩
    exact ⟨haccounted, hsame.symm.trans h.published, h.chains, h.miner, hkeeps⟩
  · exact ⟨haccounted, h.published, h.chains, h.miner, hkeeps⟩

/-- Accepting a request publishes nothing and keeps the invariant. -/
theorem Serial.serverAccept {d : UInt64} {s s' : Threads} (h : Serial host args d s) (r : Request)
    (hstep : serverAccept host s r = some s') :
    Serial host args d s' ∧ s'.sync = s.sync ∧ s'.server.pending.Sublist [r] := by
  have haccounted := h.accounted.serverAccept host r hstep
  unfold LeoCoin.serverAccept at hstep
  split at hstep
  · rename_i command peer hidle hrecv
    rw [Option.some.injEq] at hstep
    subst hstep
    have hold : ∀ c, c < s.fresh → Function.update s.heap s.fresh peer c = s.heap c :=
      fun c hc => Function.update_of_ne (Nat.ne_of_lt hc) _ _
    have hminer : ∀ c ∈ s.miner.blockchains,
        Function.update s.heap s.fresh peer c = s.heap c := by
      intro c hc
      rcases h.accounted.miner c hc with rfl | hdead
      · exact hold _ h.accounted.published_lt
      · exact hold c (h.accounted.destroyed_lt c hdead)
    refine ⟨⟨haccounted, ?_, ?_, h.miner.congr hminer, command, ?_⟩, ?_, List.Sublist.refl _⟩
    · simp only [hold _ h.accounted.published_lt]
      exact h.published
    · intro c hc
      simp only [hminer c hc]
      exact h.chains c hc
    · simp only [Function.update_self]
      exact hrecv
    · simp only [Threads.sync, hold _ h.accounted.published_lt]
  · rename_i hidle _
    rw [Option.some.injEq] at hstep
    subst hstep
    rw [hidle]
    exact ⟨h, rfl, List.nil_sublist _⟩
  · rw [Option.some.injEq] at hstep
    subst hstep
    exact ⟨⟨haccounted, h.published, h.chains, h.miner, trivial⟩, rfl, List.nil_sublist _⟩
  · exact absurd hstep (by simp only [reduceCtorEq, not_false_eq_true])

theorem serial_startup (blockchain : Blockchain) (version : UInt64) :
    Serial host args blockchain.numLeadingZeroBytesRequiredInBlockHash
      (Threads.startup blockchain version) :=
  ⟨accounted_startup blockchain version, rfl, fun _ hc => absurd hc List.not_mem_nil, trivial,
    trivial⟩

/-- A step keeps the invariant. It publishes nothing, or what one event
    publishes, and if that is a request, it is the one that was pending. -/
theorem Serial.step {d : UInt64} {s s' : Threads} (h : Serial host args d s) (a : ThreadAction)
    (hstep : threadStep host args s a = some s') :
    Serial host args d s' ∧ ∃ es,
      Run.run (nodeStep host args printProgress) s.sync es = some s'.sync ∧
      (es.filterMap Event.handled ++ s'.server.pending).Sublist
        (s.server.pending ++ [a].filterMap ThreadAction.accepted) := by
  cases a with
  | mine shouldStop m =>
      rcases append_serial host args printProgress h shouldStop m hstep with
        ⟨hserver, es, hrun, hnone⟩
      refine ⟨h.minerStep host args shouldStop m hstep, es, hrun, ?_⟩
      rw [hnone, hserver]
      exact List.sublist_append_left _ _
  | accept r =>
      rcases h.serverAccept host args r hstep with ⟨hserial, hsync, hpending⟩
      refine ⟨hserial, [], by rw [hsync]; rfl, ?_⟩
      exact hpending.trans (List.sublist_append_right _ _)
  | serve =>
      rcases (serverStep_serial host args printProgress s s' h.server hstep).2 with
        ⟨es, hrun, hpending⟩
      exact ⟨h.serverStep host args hstep, es, hrun,
        hpending.trans (List.sublist_append_left _ _)⟩

/-- After these steps from a chain, the threads are in order, and a serial run
    publishes what they publish. The requests it handles and the one that is
    pending are among those accepted. -/
def Serialized (start : SynchronizedBlockchain) (actions : List ThreadAction) (s : Threads) :
    Prop :=
  Serial host args start.blockchain.numLeadingZeroBytesRequiredInBlockHash s ∧
    ∃ events, Run.run (nodeStep host args printProgress) start events = some s.sync ∧
      (events.filterMap Event.handled ++ s.server.pending).Sublist
        (actions.filterMap ThreadAction.accepted)

variable {host args printProgress}

theorem Serialized.step {start : SynchronizedBlockchain} {actions : List ThreadAction}
    {s s' : Threads} (h : Serialized host args printProgress start actions s) (a : ThreadAction)
    (hstep : threadStep host args s a = some s') :
    Serialized host args printProgress start (actions ++ [a]) s' := by
  rcases h with ⟨hs, events, hevents, hrequests⟩
  rcases hs.step host args printProgress a hstep with ⟨hs', es, hes, hpending⟩
  refine ⟨hs', events ++ es, (Run.run_append _ _ _ _).mpr ⟨_, hevents, hes⟩, ?_⟩
  rw [List.filterMap_append, List.filterMap_append, List.append_assoc]
  -- What is accepted now comes behind what was pending.
  refine ((List.Sublist.refl _).append hpending).trans ?_
  rw [← List.append_assoc]
  exact hrequests.append (List.Sublist.refl _)

end Events

/-- Every run of the two threads, in any order of their steps, publishes what a
    run of whole iterations and whole requests publishes, one after the other.
    The requests of that run are among those that the server accepted, in the
    order in which it accepted them. -/
theorem threads_serialized (host : Host) (args : MineBlocksArgs) (printProgress : Bool)
    (blockchain : Blockchain) (version : UInt64) (actions : List ThreadAction) (s : Threads)
    (hrun : Run.run (threadStep host args) (Threads.startup blockchain version) actions =
      some s) :
    ∃ events, Run.run (nodeStep host args printProgress) ⟨blockchain, version⟩ events =
        some s.sync ∧
      (events.filterMap Event.handled).Sublist (actions.filterMap ThreadAction.accepted) := by
  have hstart : Serialized host args printProgress ⟨blockchain, version⟩ []
      (Threads.startup blockchain version) :=
    ⟨serial_startup host args blockchain version, [], rfl, List.Sublist.refl _⟩
  rcases Run.run_history (Serialized host args printProgress ⟨blockchain, version⟩)
    (fun _ _ a _ hs hstep => hs.step a hstep) [] _ actions s hstart hrun with
    ⟨_, events, hevents, hrequests⟩
  exact ⟨events, hevents, (List.sublist_append_left _ _).trans hrequests⟩

/-- The miner takes a step and the server switches to the sample chain. A serial
    run publishes it as well, and handles no other request. -/
theorem threads_serialized_sample :
    ∃ s events, Run.run (threadStep sampleHost sampleArgs) (.startup ⟨[sampleGenesis], 2⟩ 0)
        (mineOn :: handOver (sampleRequest sampleChain sampleChain_small)) = some s ∧
      s.sync = ⟨sampleChain, 1⟩ ∧
      Run.run (nodeStep sampleHost sampleArgs false) ⟨⟨[sampleGenesis], 2⟩, 0⟩ events =
        some s.sync ∧
      (events.filterMap Event.handled).Sublist
        [sampleRequest sampleChain sampleChain_small] := by
  rcases sampleRequest_replaces with ⟨hundisturbed, hreplaces⟩
  have hhand := handOver_run sampleHost sampleArgs
    { Threads.startup ⟨[sampleGenesis], 2⟩ 0 with miner := .loopTest 0 (.ok ()) } _ sampleChain rfl
    Nat.zero_lt_one hundisturbed hreplaces
  have hrun : Run.run (threadStep sampleHost sampleArgs) (.startup ⟨[sampleGenesis], 2⟩ 0)
      (mineOn :: handOver (sampleRequest sampleChain sampleChain_small)) = some _ :=
    (Run.run_cons _ _ _ _).mpr ⟨_, rfl, hhand⟩
  rcases threads_serialized sampleHost sampleArgs false ⟨[sampleGenesis], 2⟩ 0 _ _ hrun with
    ⟨events, hevents, hrequests⟩
  exact ⟨_, events, hrun, rfl, hevents, hrequests⟩

end LeoCoin
