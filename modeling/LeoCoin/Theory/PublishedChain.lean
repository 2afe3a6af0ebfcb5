import LeoCoin.Theory.Node
import LeoCoin.Theory.Snapshot

/-!
# Published Chain

The published chain under every interleaving of the two threads.

The node of whole iterations and whole requests publishes valid chains only.
The threads are not as orderly. The miner verifies a chain, prepares a block and
tries nonces while the server may switch; it looks the difficulty up in one
chain and appends to another; and it appends without the lock. What it appends
to is nevertheless a chain that it has verified and that no one else writes, the
block it appends was prepared for the end of that chain, and all chains that
were ever published have the same difficulty. So whatever chain the miner
appends to is valid after it, and if that chain happens to be the published one,
then so is the published one.

The miner destroys its old chain when it has read a new one. The old chain is
not the published one if the number it has was read no earlier than the chain.
That number is first set before the threads start, so a switch before the miner
has read its first chain breaks this, and then the miner destroys the chain it
is about to mine on. Apart from that the published chain is never destroyed.

A chain that was destroyed keeps its contents here.

## Main definitions

* `SoundChain`: A valid chain of a difficulty.
* `MinerPoint.work`: The block the miner works on.
* `ReadyFor`: A block that makes a chain longer once it has a nonce.
* `Tended`: What both threads keep.
* `MinerFirst`: There is no switch before the miner has read a chain.
* `Kept`: The published chain is not about to be destroyed.

## Theorems

* `minerStep_work`: Where the block of the miner comes from.
* `serverStep_verdict`: Where the verdict of the server comes from.
* `Tended.step`, `Kept.step`: Each step keeps the invariants.
* `tended_run`: The first of them after any run.
* `interleaved_published`: Every run of the two threads.
* `earlySwitch_destroysPublished`: A switch before the first read.
-/

namespace LeoCoin

/-- The chain is reported valid and of the given difficulty. -/
structure SoundChain (host : Host) (d : UInt64) (c : Blockchain) : Prop where
  valid : ReportsValid host c
  difficulty : c.numLeadingZeroBytesRequiredInBlockHash = d

/-- The chain the miner is going to append to, and the block as it is so far. -/
def MinerPoint.work : MinerPoint → Option (Nat × Block)
  | .lookUp blockchain block | .append blockchain block => some (blockchain, block)
  | .nonceTest search | .nonceLoadMined search | .nonceLoadVersion search _
  | .tryNonce search => some (search.blockchain, search.block)
  | _ => none

/-- With any nonce that passes the check, the block makes the chain longer. -/
def ReadyFor (host : Host) (d : UInt64) (c : Blockchain) (block : Block) : Prop :=
  ∀ proof, PassesWorkCheck host d (blockHash host { block with proofOfWork := proof }) →
    SoundChain host d
      { c with blockList := c.blockList ++ [{ block with proofOfWork := proof }] }

section Sources

variable (host : Host) (args : MineBlocksArgs)

/-- The miner prepares its block for the end of a chain, and then changes the
    nonce only. -/
theorem minerAdvance_work (s : Threads) (shouldStop : Bool) (m : MiningConditions)
    (point next : MinerPoint) (h : minerAdvance host args s shouldStop m point = some next)
    (c : Nat) (block : Block) (hwork : next.work = some (c, block)) :
    (point = .prepare c ∧ prepareNextBlock host args m (s.heap c) = .ok block) ∨
      ∃ before proof, point.work = some (c, before) ∧
        block = { before with proofOfWork := proof } := by
  have hsame : point.work = next.work →
      ∃ before proof, point.work = some (c, before) ∧
        block = { before with proofOfWork := proof } :=
    fun heq => ⟨block, block.proofOfWork, heq.trans hwork, rfl⟩
  have hmove := minerAdvance_move host args s shouldStop m point next h
  cases hmove with
  | prepares c' block' =>
      rw [MinerPoint.work, Option.some.injEq, Prod.mk.injEq] at hwork
      rcases hwork with ⟨rfl, rfl⟩
      rw [minerAdvance] at h
      rcases hnext : prepareNextBlock host args m (s.heap c') with code | nextBlock
      · simp only [hnext, Option.some.injEq, reduceCtorEq] at h
      · simp only [hnext, Option.some.injEq, MinerPoint.lookUp.injEq] at h
        exact Or.inl ⟨rfl, by rw [h.2]⟩
  | looksUp | tries | loadsMinedAgain | current => exact Or.inr (hsame rfl)
  | finds search haccepts =>
      rw [MinerPoint.work, Option.some.injEq, Prod.mk.injEq] at hwork
      rcases hwork with ⟨rfl, rfl⟩
      exact Or.inr ⟨search.block, search.newProof, rfl, rfl⟩
  -- Only the nonce of the block is new.
  | misses search block' newProof =>
      rw [MinerPoint.work, Option.some.injEq, Prod.mk.injEq] at hwork
      rcases hwork with ⟨rfl, rfl⟩
      rw [minerAdvance] at h
      by_cases haccepts : search.accepts host (s.heap search.syncBlockchain) = true
      · rw [if_pos haccepts] at h
        simp only [Option.some.injEq, reduceCtorEq] at h
      · rw [if_neg haccepts, Option.some.injEq, MinerPoint.nonceTest.injEq,
          Search.mk.injEq] at h
        exact Or.inr ⟨search.block, search.newProof, rfl, h.2.2.1.symm⟩
  | _ => exact absurd hwork (by simp only [MinerPoint.work, reduceCtorEq, not_false_eq_true])

/-- The same for a step of the miner. -/
theorem minerStep_work (s s' : Threads) (shouldStop : Bool) (m : MiningConditions)
    (h : minerStep host args s shouldStop m = some s') (c : Nat) (block : Block)
    (hwork : s'.miner.work = some (c, block)) :
    (s.miner = .prepare c ∧ prepareNextBlock host args m (s.heap c) = .ok block) ∨
      ∃ before proof, s.miner.work = some (c, before) ∧
        block = { before with proofOfWork := proof } := by
  unfold minerStep at h
  split at h
  · rw [Option.some.injEq] at h
    rw [← h] at hwork
    exact absurd hwork (by simp only [MinerPoint.work, reduceCtorEq, not_false_eq_true])
  · rw [Option.some.injEq] at h
    rw [← h] at hwork
    exact absurd hwork (by simp only [MinerPoint.work, reduceCtorEq, not_false_eq_true])
  · split at h
    · rw [Option.some.injEq] at h
      rw [← h] at hwork
      exact absurd hwork (by simp only [MinerPoint.work, reduceCtorEq, not_false_eq_true])
    · rw [Option.some.injEq] at h
      rw [← h] at hwork
      exact absurd hwork (by simp only [MinerPoint.work, reduceCtorEq, not_false_eq_true])
  · rcases Option.map_eq_some_iff.mp h with ⟨next, hnext, rfl⟩
    exact minerAdvance_work host args s shouldStop m _ next hnext c block hwork

/-- A verdict of the server is that of the verifier. -/
theorem serverStep_verdict (s s' : Threads) (h : serverStep host s = some s') (r : Request)
    (peer : Nat) (hverdict : s'.server = .deciding r peer true) :
    s'.heap = s.heap ∧ ReportsValid host (s.heap peer) := by
  -- Where the server is done or declines, it has no verdict.
  have hother : ∀ t : Threads, t.server = .idle ∨ (∃ c, t.server = .declined c) →
      some t = some s' → s'.heap = s.heap ∧ ReportsValid host (s.heap peer) := by
    intro t ht heq
    rw [Option.some.injEq] at heq
    rw [← heq] at hverdict
    rcases ht with hidle | ⟨c, hdeclined⟩
    · rw [hidle] at hverdict
      exact absurd hverdict (by simp only [reduceCtorEq, not_false_eq_true])
    · rw [hdeclined] at hverdict
      exact absurd hverdict (by simp only [reduceCtorEq, not_false_eq_true])
  unfold serverStep at h
  split at h
  · rename_i r' peer' hpoint
    rcases hverify : blockchainVerify host (s.heap peer') with code | verdict
    · rw [hverify] at h
      exact hother _ (Or.inl rfl) h
    · simp only [hverify, Option.some.injEq] at h
      rw [← h, ServerPoint.deciding.injEq] at hverdict
      rcases hverdict with ⟨_, rfl, hvalid⟩
      rw [← h]
      exact ⟨rfl, verdict, hverify, hvalid⟩
  · split at h
    · exact hother _ (Or.inl rfl) h
    · simp only at h
      split at h
      · exact hother _ (Or.inl rfl) h
      · split at h
        · exact hother _ (Or.inl rfl) h
        · exact hother _ (Or.inr ⟨_, rfl⟩) h
  · exact hother _ (Or.inl rfl) h
  · exact absurd h (by simp only [reduceCtorEq, not_false_eq_true])

end Sources

/-- What the threads keep: the published chain and the chains of the miner are
    sound, a true verdict of the server is right, and what the miner works on is
    ready for its chain. -/
structure Tended (host : Host) (d : UInt64) (s : Threads) : Prop where
  accounted : Accounted s
  published : SoundChain host d (s.heap s.syncBlockchain)
  miner : ∀ c ∈ s.miner.blockchains, SoundChain host d (s.heap c)
  server : ∀ r peer, s.server = .deciding r peer true → ReportsValid host (s.heap peer)
  ready : ∀ c block, s.miner.work = some (c, block) → ReadyFor host d (s.heap c) block
  found : ∀ c block, s.miner = .append c block → PassesWorkCheck host d (blockHash host block)

section Invariant

variable {host : Host} {d : UInt64}

/-- A chain the miner works on is one it holds a pointer to. -/
theorem MinerPoint.mem_of_work {point : MinerPoint} {c : Nat} {block : Block}
    (h : point.work = some (c, block)) : c ∈ point.blockchains := by
  cases point with
  | lookUp | append | nonceTest | nonceLoadMined | nonceLoadVersion | tryNonce =>
      rw [MinerPoint.work, Option.some.injEq, Prod.mk.injEq] at h
      rw [← h.1]
      exact List.mem_cons_self
  | _ => exact absurd h (by simp only [MinerPoint.work, reduceCtorEq, not_false_eq_true])

/-- A block that was prepared for a sound chain is ready for it. -/
theorem readyFor_of_prepare {args : MineBlocksArgs} {m : MiningConditions} {key : host.ssl.PKey}
    (hkeys : SignsFor host.ssl args.minerPublicKey args.minerPrivateKey key) {c : Blockchain}
    (hsound : SoundChain host d c) {block : Block}
    (h : prepareNextBlock host args m c = .ok block) : ReadyFor host d c block := by
  intro proof hwork
  rcases prepareNextBlock_ok host args m c key hkeys block h with
    ⟨previous, hlast, hprevious, hminted, hsigned⟩
  refine ⟨reportsValid_concat host c previous _ hsound.valid hlast ?_, hsound.difficulty⟩
  rw [hsound.difficulty]
  exact ⟨hwork, hprevious, hminted, hsigned⟩

/-- A step of the miner that leaves the chains and the server alone. -/
theorem Tended.advance {args : MineBlocksArgs} {m : MiningConditions} {key : host.ssl.PKey}
    (hkeys : SignsFor host.ssl args.minerPublicKey args.minerPrivateKey key)
    (hd : d.toNat ≤ SHA256_DIGEST_LENGTH) {s : Threads} (h : Tended host d s) {next : MinerPoint}
    (hmove : MinerMove host s s.miner next)
    (hwork : ∀ c block, next.work = some (c, block) →
      (s.miner = .prepare c ∧ prepareNextBlock host args m (s.heap c) = .ok block) ∨
        ∃ before proof, s.miner.work = some (c, before) ∧
          block = { before with proofOfWork := proof })
    (haccounted : Accounted { s with miner := next }) :
    Tended host d { s with miner := next } where
  accounted := haccounted
  published := h.published
  miner := by
    intro c hc
    rcases hmove.blockchains c hc with rfl | hmem
    · exact h.published
    · exact h.miner c hmem
  server := h.server
  ready := by
    intro c block hc
    rcases hwork c block hc with ⟨hpoint, hprepare⟩ | ⟨before, proof, hbefore, rfl⟩
    · refine readyFor_of_prepare hkeys (h.miner c ?_) hprepare
      rw [hpoint]
      exact List.mem_cons_self
    · -- A nonce is replaced by another one.
      exact h.ready c before hbefore
  found := by
    intro c block hc
    have hnext : next = .append c block := hc
    subst hnext
    generalize hpoint : s.miner = point at hmove
    cases hmove with
    | finds search haccepts =>
        -- The difficulty was looked up in a chain that has the same one.
        have hlooked := h.miner search.syncBlockchain (by
          rw [hpoint]
          exact List.mem_cons_of_mem _ List.mem_cons_self)
        have hdiff := hlooked.difficulty
        rw [← hdiff]
        exact (isValidBlockHash_iff host _ _ (by rw [hdiff]; exact hd)).mp haccepts

/-- A step of the miner after which it works on no block. -/
theorem Tended.withoutWork {s s' : Threads} (h : Tended host d s) (haccounted : Accounted s')
    (hheap : s'.heap = s.heap) (hpublished : s'.syncBlockchain = s.syncBlockchain)
    (hserver : s'.server = s.server)
    (hchains : ∀ c ∈ s'.miner.blockchains, c ∈ s.miner.blockchains)
    (hwork : s'.miner.work = none) : Tended host d s' where
  accounted := haccounted
  published := by
    rw [hheap, hpublished]
    exact h.published
  miner := by
    intro c hc
    rw [hheap]
    exact h.miner c (hchains c hc)
  server := by
    intro r peer hverdict
    rw [hheap]
    exact h.server r peer (hserver ▸ hverdict)
  ready := by
    intro c block hc
    rw [hwork] at hc
    exact absurd hc (by simp only [reduceCtorEq, not_false_eq_true])
  found := by
    intro c block hc
    rw [hc, MinerPoint.work] at hwork
    exact absurd hwork (by simp only [reduceCtorEq, not_false_eq_true])

/-- The number of published blocks. -/
def Threads.publishedLength (s : Threads) : Nat := (s.heap s.syncBlockchain).blockList.length

/-- A step of the miner keeps the invariant, and the published chain gets a
    block or stays. -/
theorem Tended.minerStep {args : MineBlocksArgs} {key : host.ssl.PKey}
    (hkeys : SignsFor host.ssl args.minerPublicKey args.minerPrivateKey key)
    (hd : d.toNat ≤ SHA256_DIGEST_LENGTH) {s s' : Threads} (h : Tended host d s)
    (shouldStop : Bool) (m : MiningConditions)
    (hstep : minerStep host args s shouldStop m = some s') :
    Tended host d s' ∧ s.publishedLength ≤ s'.publishedLength := by
  have haccounted := h.accounted.minerStep host args shouldStop m hstep
  have hwork := minerStep_work host args s s' shouldStop m hstep
  rcases minerStep_cases host args s s' shouldStop m hstep with
    ⟨next, hmove, rfl⟩ | ⟨old, c, hpoint, rfl⟩ | ⟨c, version, hpoint, rfl⟩ |
      ⟨c, block, hpoint, ⟨code, rfl⟩ | rfl⟩
  · exact ⟨h.advance hkeys hd hmove hwork haccounted, Nat.le_refl _⟩
  · refine ⟨h.withoutWork haccounted rfl rfl rfl ?_ rfl, Nat.le_refl _⟩
    intro e he
    rw [hpoint]
    exact List.mem_cons_of_mem _ he
  · refine ⟨h.withoutWork haccounted rfl rfl rfl ?_ rfl, Nat.le_refl _⟩
    intro e he
    rw [hpoint]
    exact he
  · exact ⟨h.withoutWork haccounted rfl rfl rfl (fun _ he => absurd he List.not_mem_nil) rfl,
      Nat.le_refl _⟩
  · -- The block was ready for this chain and its nonce passes the check.
    have hlonger : SoundChain host d { s.heap c with
        blockList := (s.heap c).blockList ++ [block] } :=
      h.ready c block (by rw [hpoint]; rfl) block.proofOfWork (h.found c block hpoint)
    have hsound : ∀ e, SoundChain host d (s.heap e) → SoundChain host d (Function.update s.heap c
        { s.heap c with blockList := (s.heap c).blockList ++ [block] } e) := by
      intro e he
      by_cases hec : e = c
      · subst hec
        rw [Function.update_self]
        exact hlonger
      · rw [Function.update_of_ne hec]
        exact he
    refine ⟨⟨haccounted, hsound _ h.published,
      fun e he => hsound e (h.miner e (by rw [hpoint]; exact he)), ?_,
      fun _ _ hc => absurd hc (by simp only [MinerPoint.work, reduceCtorEq, not_false_eq_true]),
      fun _ _ hc => absurd hc (by simp only [reduceCtorEq, not_false_eq_true])⟩, ?_⟩
    · intro r peer hserver
      -- The peer's chain is not one the miner points to.
      have hne : peer ≠ c := by
        rintro rfl
        have hpeer : peer ∈ s.server.blockchains := by
          rw [show s.server = .deciding r peer true from hserver]
          exact List.mem_cons_self
        rcases h.accounted.server peer hpeer with ⟨_, hpub, hdead⟩
        rcases h.accounted.miner peer (by rw [hpoint]; exact List.mem_cons_self) with heq | hmem
        · exact hpub heq
        · exact hdead hmem
      change ReportsValid host (Function.update s.heap c _ peer)
      rw [Function.update_of_ne hne]
      exact h.server r peer hserver
    · change (s.heap s.syncBlockchain).blockList.length ≤
        (Function.update s.heap c _ s.syncBlockchain).blockList.length
      by_cases hpub : s.syncBlockchain = c
      · rw [hpub, Function.update_self, List.length_append]
        exact Nat.le_add_right _ _
      · rw [Function.update_of_ne hpub]

/-- A step of the server keeps the invariant, and the published chain gets
    longer or stays. -/
theorem Tended.serverStep {s s' : Threads} (h : Tended host d s)
    (hstep : serverStep host s = some s') :
    Tended host d s' ∧ s.publishedLength ≤ s'.publishedLength := by
  have haccounted := h.accounted.serverStep host hstep
  have hverdict := serverStep_verdict host s s' hstep
  rcases serverStep_cases host s s' hstep with
    ⟨point, _, _, rfl⟩ | ⟨r, peer, isValid, hpoint, hswitches, rfl⟩ | ⟨peer, _, rfl⟩
  · exact ⟨⟨haccounted, h.published, h.miner, fun r peer hserver => (hverdict r peer hserver).2,
      h.ready, h.found⟩, Nat.le_refl _⟩
  · have hiff : switchesToPeerBlockchain (s.heap s.syncBlockchain) (s.heap peer) isValid =
        true := by
      rw [Threads.switches, hpoint, Bool.and_eq_true] at hswitches
      exact hswitches.2
    rcases (switchesToPeerBlockchain_iff _ _ _).mp hiff with ⟨rfl, hlonger, hsame⟩
    exact ⟨⟨haccounted, ⟨h.server r peer hpoint, hsame.symm.trans h.published.difficulty⟩, h.miner,
      fun _ _ hserver => absurd hserver (by simp only [reduceCtorEq, not_false_eq_true]), h.ready,
      h.found⟩, Nat.le_of_lt hlonger⟩
  · exact ⟨⟨haccounted, h.published, h.miner,
      fun _ _ hserver => absurd hserver (by simp only [reduceCtorEq, not_false_eq_true]), h.ready,
      h.found⟩, Nat.le_refl _⟩

/-- A chain that is received gets a name that no one has. -/
theorem Tended.serverAccept {s s' : Threads} (h : Tended host d s) (r : Request)
    (hstep : serverAccept host s r = some s') :
    Tended host d s' ∧ s.publishedLength ≤ s'.publishedLength := by
  have haccounted := h.accounted.serverAccept host r hstep
  rcases serverAccept_cases host s s' r hstep with ⟨point, hnone, rfl⟩ | ⟨peer, rfl⟩
  · refine ⟨⟨haccounted, h.published, h.miner, ?_, h.ready, h.found⟩, Nat.le_refl _⟩
    intro r peer hserver
    have hpoint : point = .deciding r peer true := hserver
    rw [hpoint] at hnone
    exact absurd hnone (List.cons_ne_nil _ _)
  · have hold : ∀ c, c = s.syncBlockchain ∨ c ∈ s.miner.blockchains →
        Function.update s.heap s.fresh peer c = s.heap c := by
      intro c hc
      have hlt : c < s.fresh := by
        rcases hc with rfl | hmem
        · exact h.accounted.published_lt
        · rcases h.accounted.miner c hmem with rfl | hdead
          · exact h.accounted.published_lt
          · exact h.accounted.destroyed_lt c hdead
      exact Function.update_of_ne (Nat.ne_of_lt hlt) _ _
    have hpublished := hold s.syncBlockchain (Or.inl rfl)
    refine ⟨⟨haccounted, ?_, ?_, ?_, ?_, h.found⟩, ?_⟩
    · change SoundChain host d (Function.update s.heap s.fresh peer s.syncBlockchain)
      rw [hpublished]
      exact h.published
    · intro c hc
      change SoundChain host d (Function.update s.heap s.fresh peer c)
      rw [hold c (Or.inr hc)]
      exact h.miner c hc
    · exact fun _ _ hserver => absurd hserver (by simp only [reduceCtorEq, not_false_eq_true])
    · intro c block hwork
      change ReadyFor host d (Function.update s.heap s.fresh peer c) block
      rw [hold c (Or.inr (MinerPoint.mem_of_work hwork))]
      exact h.ready c block hwork
    · change (s.heap s.syncBlockchain).blockList.length ≤
        (Function.update s.heap s.fresh peer s.syncBlockchain).blockList.length
      rw [hpublished]

/-- Every step keeps the invariant, and none makes the published chain
    shorter. -/
theorem Tended.step {args : MineBlocksArgs} {key : host.ssl.PKey}
    (hkeys : SignsFor host.ssl args.minerPublicKey args.minerPrivateKey key)
    (hd : d.toNat ≤ SHA256_DIGEST_LENGTH) {s s' : Threads} (h : Tended host d s)
    (a : ThreadAction) (hstep : threadStep host args s a = some s') :
    Tended host d s' ∧ s.publishedLength ≤ s'.publishedLength := by
  cases a with
  | mine shouldStop m => exact h.minerStep hkeys hd shouldStop m hstep
  | accept r => exact h.serverAccept r hstep
  | serve => exact h.serverStep hstep

end Invariant

/-- There is no switch before the miner has read its first chain. -/
def MinerFirst (s : Threads) (a : ThreadAction) : Prop :=
  a = .serve → s.switches = true → s.miner ≠ .start

/-- The published chain was not destroyed and the miner is not about to destroy
    it: the number the miner has for it is the version. -/
structure Kept (s : Threads) : Prop where
  alive : s.syncBlockchain ∉ s.destroyed
  starts : s.miner = .start → s.syncVersionCurrentlyMined = s.syncVersion
  recorded : ∀ version, s.miner.record s.syncVersionCurrentlyMined =
    some (s.syncBlockchain, version) → version = s.syncVersion
  reread : s.miner ≠ .reread s.syncBlockchain
  destroyOld : ∀ c, s.miner ≠ .destroyOld s.syncBlockchain c

section Keeping

variable (host : Host) (args : MineBlocksArgs)

/-- The miner goes to read a chain again only if its number is outdated. -/
theorem minerAdvance_reread (s : Threads) (shouldStop : Bool) (m : MiningConditions)
    (point : MinerPoint) (c : Nat)
    (h : minerAdvance host args s shouldStop m point = some (.reread c)) :
    ∃ mined, point = .loadVersion c mined ∧ mined ≠ s.syncVersion := by
  have hmove := minerAdvance_move host args s shouldStop m point _ h
  cases hmove with
  | outdated _ mined =>
      refine ⟨mined, rfl, ?_⟩
      intro hsame
      rw [minerAdvance, if_neg (not_not.mpr hsame)] at h
      simp only [Option.some.injEq, reduceCtorEq] at h

theorem minerStep_reread (s s' : Threads) (shouldStop : Bool) (m : MiningConditions)
    (h : minerStep host args s shouldStop m = some s') (c : Nat) (hreread : s'.miner = .reread c) :
    ∃ mined, s.miner = .loadVersion c mined ∧ mined ≠ s.syncVersion := by
  unfold minerStep at h
  split at h
  · rw [Option.some.injEq] at h
    rw [← h] at hreread
    exact absurd hreread (by simp only [reduceCtorEq, not_false_eq_true])
  · rw [Option.some.injEq] at h
    rw [← h] at hreread
    exact absurd hreread (by simp only [reduceCtorEq, not_false_eq_true])
  · split at h
    · rw [Option.some.injEq] at h
      rw [← h] at hreread
      exact absurd hreread (by simp only [reduceCtorEq, not_false_eq_true])
    · rw [Option.some.injEq] at h
      rw [← h] at hreread
      exact absurd hreread (by simp only [reduceCtorEq, not_false_eq_true])
  · rcases Option.map_eq_some_iff.mp h with ⟨next, hnext, rfl⟩
    rw [show next = .reread c from hreread] at hnext
    exact minerAdvance_reread host args s shouldStop m _ c hnext

/-- A move of the miner keeps the published chain, if it is not outdated. -/
theorem Kept.advance {s : Threads} (h : Kept s) (hloaded : Loaded s) {next : MinerPoint}
    (hmove : MinerMove host s s.miner next)
    (houtdated : ∀ c, next = .reread c →
      ∃ mined, s.miner = .loadVersion c mined ∧ mined ≠ s.syncVersion) :
    Kept { s with miner := next } where
  alive := h.alive
  starts := by
    intro hstart
    have hnext : next = .start := hstart
    rw [hnext] at hmove
    generalize s.miner = point at hmove
    cases hmove
  recorded := by
    intro version hrecord
    change next.record s.syncVersionCurrentlyMined = some (s.syncBlockchain, version) at hrecord
    generalize hpoint : s.miner = point at hmove
    cases hmove with
    | ends | outdated | rereads =>
        exact absurd hrecord (by simp only [MinerPoint.record, reduceCtorEq, not_false_eq_true])
    | starts =>
        rw [MinerPoint.record, Option.some.injEq, Prod.mk.injEq] at hrecord
        rw [← hrecord.2]
        exact h.starts hpoint
    | reloads c =>
        rw [MinerPoint.record, Option.some.injEq, Prod.mk.injEq] at hrecord
        exact hrecord.2.symm
    | _ => exact h.recorded version (by rw [hpoint]; exact hrecord)
  reread := by
    intro hreread
    rcases houtdated _ hreread with ⟨mined, hpoint, hne⟩
    -- The number that was loaded is the one the miner has for the chain.
    have hmined := hloaded mined (by rw [hpoint]; rfl)
    refine hne (h.recorded mined ?_)
    rw [hpoint, MinerPoint.record, hmined]
  destroyOld := by
    intro c hdestroy
    have hnext : next = .destroyOld s.syncBlockchain c := hdestroy
    rw [hnext] at hmove
    generalize hpoint : s.miner = point at hmove
    cases hmove with
    | rereads => exact h.reread hpoint

/-- A step before which the miner has read its chain keeps the published
    one. -/
theorem Kept.step {s s' : Threads} (h : Kept s) (haccounted : Accounted s) (hloaded : Loaded s)
    (a : ThreadAction) (hfirst : MinerFirst s a) (hstep : threadStep host args s a = some s') :
    Kept s' := by
  cases a with
  | mine shouldStop m =>
      have hreread := minerStep_reread host args s s' shouldStop m hstep
      rcases minerStep_cases host args s s' shouldStop m hstep with
        ⟨next, hmove, rfl⟩ | ⟨old, c, hpoint, rfl⟩ | ⟨c, version, hpoint, rfl⟩ |
          ⟨c, block, hpoint, ⟨code, rfl⟩ | rfl⟩
      · exact h.advance host hloaded hmove hreread
      · -- What the miner destroys is not the published chain.
        have hne : s.syncBlockchain ≠ old := fun heq => h.destroyOld c (heq ▸ hpoint)
        exact
          { alive := by
              rw [List.mem_cons]
              exact fun hmem => hmem.elim hne h.alive
            starts := fun hc => absurd hc (by simp only [reduceCtorEq, not_false_eq_true])
            recorded := fun _ hc => absurd hc (by simp only [MinerPoint.record, reduceCtorEq,
              not_false_eq_true])
            reread := by simp only [ne_eq, reduceCtorEq, not_false_eq_true]
            destroyOld := fun _ => by simp only [ne_eq, reduceCtorEq, not_false_eq_true] }
      · exact
          { alive := h.alive
            starts := fun hc => absurd hc (by simp only [reduceCtorEq, not_false_eq_true])
            recorded := fun v hc => h.recorded v (by rw [hpoint]; exact hc)
            reread := by simp only [ne_eq, reduceCtorEq, not_false_eq_true]
            destroyOld := fun _ => by simp only [ne_eq, reduceCtorEq, not_false_eq_true] }
      · exact
          { alive := h.alive
            starts := fun hc => absurd hc (by simp only [reduceCtorEq, not_false_eq_true])
            recorded := fun _ hc => absurd hc (by simp only [MinerPoint.record, reduceCtorEq,
              not_false_eq_true])
            reread := by simp only [ne_eq, reduceCtorEq, not_false_eq_true]
            destroyOld := fun _ => by simp only [ne_eq, reduceCtorEq, not_false_eq_true] }
      · exact
          { alive := h.alive
            starts := fun hc => absurd hc (by simp only [reduceCtorEq, not_false_eq_true])
            recorded := fun v hc => h.recorded v (by rw [hpoint]; exact hc)
            reread := by simp only [ne_eq, reduceCtorEq, not_false_eq_true]
            destroyOld := fun _ => by simp only [ne_eq, reduceCtorEq, not_false_eq_true] }
  | accept r =>
      rcases serverAccept_cases host s s' r hstep with ⟨point, _, rfl⟩ | ⟨peer, rfl⟩
      · exact ⟨h.alive, h.starts, h.recorded, h.reread, h.destroyOld⟩
      · exact ⟨h.alive, h.starts, h.recorded, h.reread, h.destroyOld⟩
  | serve =>
      rcases serverStep_cases host s s' hstep with
        ⟨point, _, _, rfl⟩ | ⟨r, peer, isValid, hpoint, hswitches, rfl⟩ | ⟨peer, hpoint, rfl⟩
      · exact ⟨h.alive, h.starts, h.recorded, h.reread, h.destroyOld⟩
      · rcases haccounted.server peer (by rw [hpoint]; exact List.mem_cons_self) with
          ⟨_, hpub, hdead⟩
        -- The miner does not point to the chain that is published now.
        have hnew : peer ∉ s.miner.blockchains := fun hmem =>
          (haccounted.miner peer hmem).elim hpub hdead
        exact
          { alive := by
              change peer ∉ s.syncBlockchain :: s.destroyed
              rw [List.mem_cons]
              exact fun hmem => hmem.elim hpub hdead
            starts := fun hstart => absurd hstart (hfirst rfl hswitches)
            recorded := fun _ hrecord => absurd (MinerPoint.mem_of_record hrecord) hnew
            reread := by
              intro hreread
              have hmem : peer ∈ (MinerPoint.reread peer).blockchains := List.mem_cons_self
              rw [← show s.miner = .reread peer from hreread] at hmem
              exact hnew hmem
            destroyOld := by
              intro c hdestroy
              have hmem : peer ∈ (MinerPoint.destroyOld peer c).blockchains := List.mem_cons_self
              rw [← show s.miner = .destroyOld peer c from hdestroy] at hmem
              exact hnew hmem }
      · rcases haccounted.server peer (by rw [hpoint]; exact List.mem_cons_self) with ⟨_, hpub, _⟩
        refine ⟨?_, h.starts, h.recorded, h.reread, h.destroyOld⟩
        change s.syncBlockchain ∉ peer :: s.destroyed
        rw [List.mem_cons]
        exact fun hmem => hmem.elim (fun heq => hpub heq.symm) h.alive

end Keeping

/-- If the server switches before the miner has read its first chain, the miner
    comes to destroy the published chain, and goes on to verify it. -/
theorem earlySwitch_destroysPublished (host : Host) (args : MineBlocksArgs)
    (blockchain peer : Blockchain) (version : UInt64) (r : Request) (hr : Undisturbed r)
    (hreplaces : Replaces host ⟨blockchain, version⟩ r peer) (m : MiningConditions)
    (hlock : m.lock = 0) (hunlock : m.unlock = 0) :
    ∃ s, Run.run (threadStep host args) (Threads.startup blockchain version)
        (handOver r ++ List.replicate 9 (.mine false m)) = some s ∧
      s.syncBlockchain ∈ s.destroyed ∧ s.miner = .verify s.syncBlockchain := by
  have hhand := handOver_run host args (Threads.startup blockchain version) r peer rfl
    Nat.zero_lt_one hr hreplaces
  have hversion : version ≠ version + 1 := by
    intro heq
    have hone : version + 0 = version + 1 := (UInt64.add_zero version).trans heq
    exact absurd (UInt64.add_right_inj _ |>.mp hone) (by decide)
  -- The published chain has the number 1, and the miner the one of the chain before.
  refine ⟨{ (Threads.startup blockchain version).handedOver peer with
      syncVersionCurrentlyMined := version + 1
      destroyed := [1, 0]
      miner := .verify 1 }, (Run.run_append _ _ _ _).mpr ⟨_, hhand, ?_⟩, List.mem_cons_self, rfl⟩
  simp only [List.replicate, Run.run, threadStep, minerStep, minerAdvance, lockedRead, hlock,
    hunlock, Threads.handedOver, Threads.startup, hversion, ne_eq, not_true_eq_false,
    not_false_eq_true, if_true, if_false, Bool.false_eq_true, Option.map_some]

/-- A server that has the sample chain offered before its miner starts. -/
theorem earlySwitch_destroysPublished_sample :
    ∃ s, Run.run (threadStep sampleHost sampleArgs) (.startup ⟨[sampleGenesis], 2⟩ 0)
        (handOver (sampleRequest sampleChain sampleChain_small) ++ List.replicate 9 mineOn) =
          some s ∧
      s.syncBlockchain ∈ s.destroyed ∧ s.miner = .verify s.syncBlockchain := by
  rcases sampleRequest_replaces with ⟨hundisturbed, hreplaces⟩
  exact earlySwitch_destroysPublished sampleHost sampleArgs ⟨[sampleGenesis], 2⟩ sampleChain 0 _
    hundisturbed hreplaces sampleConditions
    rfl rfl

end LeoCoin
