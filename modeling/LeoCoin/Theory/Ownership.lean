import LeoCoin.Library.Run
import LeoCoin.Theory.Interleaving
import LeoCoin.Theory.Node

/-!
# Ownership

Who releases a chain, and whether it is used after that.

The server releases the published chain when it replaces it. The miner releases
its chain when it sees that the version changed. That chain was published once.
If it still is, the miner destroys the published chain; if not, it was replaced,
and the server has destroyed it already. The release by the miner is therefore
never right, whatever happened before.

Up to that release chains are used as they should be, as long as the miner does
not work on a chain after it was replaced. `ownership_iff` says that these are
the only two ways to go wrong.

## Main definitions

* `Owned`, `KeepsOwnership`: What every step should leave, and respect.
* `UsesPublished`: The condition on the steps of the miner.
* `Accounted`: What becomes of the chains in every run.

## Theorems

* `Accounted.step`: Every step keeps account of the chains.
* `keepsOwnership_of_usesPublished`, `usesPublished_of_keepsOwnership`: The two
  directions for one step.
* `ownership_iff`: A run respects ownership exactly if its steps meet the
  condition.
* `replacedChain_releasedTwice`: A run in which a chain is released twice.
-/

namespace LeoCoin

/-- No chain was destroyed twice, and the published one was not destroyed. -/
structure Owned (s : Threads) : Prop where
  once : s.destroyed.Nodup
  alive : s.syncBlockchain ∉ s.destroyed

/-- A step reads and appends to chains that were not destroyed, and ownership
    is in order after it. -/
structure KeepsOwnership (host : Host) (args : MineBlocksArgs) (s : Threads)
    (a : ThreadAction) : Prop where
  reads : ∀ c ∈ s.reads args a, c ∉ s.destroyed
  owned : ∀ s', threadStep host args s a = some s' → Owned s'

/-- The miner does not come to release a chain, and it uses a chain only while
    it is the published one. -/
def UsesPublished (args : MineBlocksArgs) (s : Threads) : ThreadAction → Prop
  | .mine _ _ =>
    (∀ old blockchain, s.miner ≠ .destroyOld old blockchain) ∧
      ∀ c ∈ s.miner.reads args, c = s.syncBlockchain
  | _ => True

/-- Every chain the miner points to is published or was destroyed, and the
    server's peer chain is neither. -/
structure Accounted (s : Threads) : Prop where
  published_lt : s.syncBlockchain < s.fresh
  destroyed_lt : ∀ c ∈ s.destroyed, c < s.fresh
  miner : ∀ c ∈ s.miner.blockchains, c = s.syncBlockchain ∨ c ∈ s.destroyed
  server : ∀ c ∈ s.server.blockchains, c < s.fresh ∧ c ≠ s.syncBlockchain ∧ c ∉ s.destroyed

theorem accounted_startup (blockchain : Blockchain) (version : UInt64) :
    Accounted (Threads.startup blockchain version) where
  published_lt := Nat.zero_lt_one
  destroyed_lt _ hc := absurd hc List.not_mem_nil
  miner _ hc := absurd hc List.not_mem_nil
  server _ hc := absurd hc List.not_mem_nil

theorem owned_startup (blockchain : Blockchain) (version : UInt64) :
    Owned (Threads.startup blockchain version) :=
  ⟨List.nodup_nil, List.not_mem_nil⟩

/-- What the miner reads it points to. -/
theorem MinerPoint.reads_subset (args : MineBlocksArgs) (point : MinerPoint) :
    ∀ c ∈ point.reads args, c ∈ point.blockchains := by
  intro c hc
  cases point with
  | verify d | prepare d | append d block => exact hc
  | tryNonce search =>
      rw [List.mem_singleton.mp hc]
      exact List.mem_cons_of_mem _ List.mem_cons_self
  | report d =>
      rw [MinerPoint.reads] at hc
      split at hc
      · exact hc
      · exact absurd hc List.not_mem_nil
  | _ => exact absurd hc List.not_mem_nil

/-- The server reads the peer's chain and the published one. -/
theorem ServerPoint.reads_subset (published : Nat) (point : ServerPoint) :
    ∀ c ∈ point.reads published, c = published ∨ c ∈ point.blockchains := by
  intro c hc
  cases point with
  | idle | blocked | declined peer => exact absurd hc List.not_mem_nil
  | verifying r peer => exact Or.inr hc
  | deciding r peer isValid =>
      rw [ServerPoint.reads] at hc
      split at hc
      · exact Or.inr hc
      · rcases List.mem_pair.mp hc with rfl | rfl
        · exact Or.inr List.mem_cons_self
        · exact Or.inl rfl

section Steps

variable (host : Host) (args : MineBlocksArgs)

/-- A step of the miner keeps account of the chains. -/
theorem Accounted.minerStep {s s' : Threads} (h : Accounted s) (shouldStop : Bool)
    (m : MiningConditions) (hstep : minerStep host args s shouldStop m = some s') :
    Accounted s' := by
  rcases minerStep_cases host args s s' shouldStop m hstep with
    ⟨next, hmove, rfl⟩ | ⟨old, c, hpoint, rfl⟩ | ⟨c, version, hpoint, rfl⟩ |
      ⟨c, block, hpoint, ⟨code, rfl⟩ | rfl⟩
  · refine ⟨h.published_lt, h.destroyed_lt, ?_, h.server⟩
    intro d hd
    -- A pointer the miner gains is the published one.
    rcases hmove.blockchains d hd with rfl | hmem
    · exact Or.inl rfl
    · exact h.miner d hmem
  · -- The chain that is destroyed was published, now or before.
    have hold := h.miner old (by rw [hpoint]; exact List.mem_cons_self)
    have hlt : old < s.fresh := by
      rcases hold with heq | hmem
      · exact heq ▸ h.published_lt
      · exact h.destroyed_lt old hmem
    refine ⟨h.published_lt, ?_, ?_, ?_⟩
    · intro d hd
      rcases List.mem_cons.mp hd with rfl | hmem
      · exact hlt
      · exact h.destroyed_lt d hmem
    · intro d hd
      rcases h.miner d (by rw [hpoint]; exact List.mem_cons_of_mem _ hd) with heq | hmem
      · exact Or.inl heq
      · exact Or.inr (List.mem_cons_of_mem _ hmem)
    · intro d hd
      rcases h.server d hd with ⟨hfresh, hne, hnot⟩
      refine ⟨hfresh, hne, ?_⟩
      intro hmem
      rcases List.mem_cons.mp hmem with rfl | hmem
      · rcases hold with heq | hmem
        · exact hne heq
        · exact hnot hmem
      · exact hnot hmem
  · exact ⟨h.published_lt, h.destroyed_lt, fun d hd => h.miner d (by rw [hpoint]; exact hd),
      h.server⟩
  · exact ⟨h.published_lt, h.destroyed_lt, fun d hd => absurd hd List.not_mem_nil, h.server⟩
  · exact ⟨h.published_lt, h.destroyed_lt, fun d hd => h.miner d (by rw [hpoint]; exact hd),
      h.server⟩

/-- A step of the server keeps account of the chains. -/
theorem Accounted.serverStep {s s' : Threads} (h : Accounted s)
    (hstep : serverStep host s = some s') : Accounted s' := by
  rcases serverStep_cases host s s' hstep with
    ⟨point, _, hpeer, rfl⟩ | ⟨r, peer, isValid, hpoint, _, rfl⟩ | ⟨peer, hpoint, rfl⟩
  · exact ⟨h.published_lt, h.destroyed_lt, h.miner, fun d hd => h.server d (hpeer d hd)⟩
  · -- The chain the miner may still point to joins the destroyed ones.
    rcases h.server peer (by rw [hpoint]; exact List.mem_cons_self) with ⟨hfresh, _, _⟩
    refine ⟨hfresh, ?_, ?_, fun d hd => absurd hd List.not_mem_nil⟩
    · intro d hd
      rcases List.mem_cons.mp hd with rfl | hmem
      · exact h.published_lt
      · exact h.destroyed_lt d hmem
    · intro d hd
      rcases h.miner d hd with rfl | hmem
      · exact Or.inr List.mem_cons_self
      · exact Or.inr (List.mem_cons_of_mem _ hmem)
  · rcases h.server peer (by rw [hpoint]; exact List.mem_cons_self) with ⟨hfresh, _, _⟩
    refine ⟨h.published_lt, ?_, ?_,
      fun d hd => absurd hd List.not_mem_nil⟩
    · intro d hd
      rcases List.mem_cons.mp hd with rfl | hmem
      · exact hfresh
      · exact h.destroyed_lt d hmem
    · intro d hd
      rcases h.miner d hd with heq | hmem
      · exact Or.inl heq
      · exact Or.inr (List.mem_cons_of_mem _ hmem)

/-- A received chain gets a name of its own. -/
theorem Accounted.serverAccept {s s' : Threads} (h : Accounted s) (r : Request)
    (hstep : serverAccept host s r = some s') : Accounted s' := by
  rcases serverAccept_cases host s s' r hstep with ⟨point, hnone, rfl⟩ | ⟨peer, rfl⟩
  · refine ⟨h.published_lt, h.destroyed_lt, h.miner, ?_⟩
    intro d hd
    have hd' : d ∈ point.blockchains := hd
    rw [hnone] at hd'
    exact absurd hd' List.not_mem_nil
  · refine ⟨Nat.lt_succ_of_lt h.published_lt, fun d hd => Nat.lt_succ_of_lt (h.destroyed_lt d hd),
      h.miner, ?_⟩
    intro d hd
    rw [List.mem_singleton.mp hd]
    exact ⟨Nat.lt_succ_self _, fun heq => absurd h.published_lt (heq ▸ Nat.lt_irrefl _),
      fun hmem => absurd (h.destroyed_lt _ hmem) (Nat.lt_irrefl _)⟩

/-- Every step keeps account of the chains. -/
theorem Accounted.step {s s' : Threads} (h : Accounted s) (a : ThreadAction)
    (hstep : threadStep host args s a = some s') : Accounted s' := by
  cases a with
  | mine shouldStop m => exact h.minerStep host args shouldStop m hstep
  | accept r => exact h.serverAccept host r hstep
  | serve => exact h.serverStep host hstep

/-- A step that meets the condition respects ownership. -/
theorem keepsOwnership_of_usesPublished {s : Threads} (h : Accounted s) (howned : Owned s)
    (a : ThreadAction) (huses : UsesPublished args s a) : KeepsOwnership host args s a := by
  cases a with
  | mine shouldStop m =>
      refine ⟨fun c hc => huses.2 c hc ▸ howned.alive, fun s' hstep => ?_⟩
      rcases minerStep_cases host args s s' shouldStop m hstep with
        ⟨next, _, rfl⟩ | ⟨old, c, hpoint, _⟩ | ⟨c, version, _, rfl⟩ |
          ⟨c, block, _, ⟨code, rfl⟩ | rfl⟩
      · exact ⟨howned.once, howned.alive⟩
      -- The condition rules the release out.
      · exact absurd hpoint (huses.1 old c)
      · exact ⟨howned.once, howned.alive⟩
      · exact ⟨howned.once, howned.alive⟩
      · exact ⟨howned.once, howned.alive⟩
  | accept r =>
      refine ⟨fun c hc => absurd hc List.not_mem_nil, ?_⟩
      intro s' hstep
      rcases serverAccept_cases host s s' r hstep with ⟨point, _, rfl⟩ | ⟨peer, rfl⟩
      · exact ⟨howned.once, howned.alive⟩
      · exact ⟨howned.once, howned.alive⟩
  | serve =>
      refine ⟨?_, ?_⟩
      -- The server reads under the lock, where the published chain stays what it is.
      · intro c hc
        rcases s.server.reads_subset s.syncBlockchain c hc with rfl | hmem
        · exact howned.alive
        · exact (h.server c hmem).2.2
      · intro s' hstep
        rcases serverStep_cases host s s' hstep with
          ⟨point, _, _, rfl⟩ | ⟨r, peer, isValid, hpoint, _, rfl⟩ | ⟨peer, hpoint, rfl⟩
        · exact ⟨howned.once, howned.alive⟩
        · rcases h.server peer (by rw [hpoint]; exact List.mem_cons_self) with ⟨_, hne, hnot⟩
          refine ⟨List.nodup_cons.mpr ⟨howned.alive, howned.once⟩, ?_⟩
          intro hmem
          rcases List.mem_cons.mp hmem with heq | hmem
          · exact hne heq
          · exact hnot hmem
        · rcases h.server peer (by rw [hpoint]; exact List.mem_cons_self) with ⟨_, hne, hnot⟩
          refine ⟨List.nodup_cons.mpr ⟨hnot, howned.once⟩, ?_⟩
          intro hmem
          rcases List.mem_cons.mp hmem with heq | hmem
          · exact hne heq.symm
          · exact howned.alive hmem

/-- A step that respects ownership meets the condition. -/
theorem usesPublished_of_keepsOwnership {s : Threads} (h : Accounted s) (a : ThreadAction)
    (hkeeps : KeepsOwnership host args s a) : UsesPublished args s a := by
  cases a with
  | mine shouldStop m =>
      refine ⟨?_, ?_⟩
      -- The release destroys the published chain, or one destroyed before.
      · intro old c hpoint
        have howned := hkeeps.owned { s with
          destroyed := old :: s.destroyed
          miner := .reloadVersion c } (by simp only [threadStep, LeoCoin.minerStep, hpoint])
        rcases h.miner old (by rw [hpoint]; exact List.mem_cons_self) with rfl | hmem
        · exact howned.alive List.mem_cons_self
        · exact (List.nodup_cons.mp howned.once).1 hmem
      -- A chain the miner reads is published, or the read is one of a destroyed chain.
      · intro c hc
        rcases h.miner c (s.miner.reads_subset args c hc) with heq | hmem
        · exact heq
        · exact absurd hmem (hkeeps.reads c hc)
  | accept r => exact trivial
  | serve => exact trivial

end Steps

/-- Single ownership, over every run of the two threads: every step uses only
    chains that were not destroyed, no chain is destroyed twice and the
    published chain never is, exactly if in every step the miner does not
    come to release a chain and uses none that is not the published one. -/
theorem ownership_iff (host : Host) (args : MineBlocksArgs) (blockchain : Blockchain)
    (version : UInt64) (actions : List ThreadAction) :
    Run.Meets (threadStep host args) (KeepsOwnership host args)
        (Threads.startup blockchain version) actions ↔
      Run.Meets (threadStep host args) (UsesPublished args)
        (Threads.startup blockchain version) actions := by
  constructor
  -- The account is kept by every step, so it is there whether or not they behave.
  · exact Run.meets_of_meets Accounted (fun s a s' h _ hstep => h.step host args a hstep)
      (fun s a h hkeeps => usesPublished_of_keepsOwnership host args h a hkeeps) _ actions
      (accounted_startup blockchain version)
  · exact Run.meets_of_meets (fun s => Accounted s ∧ Owned s)
      (fun s a s' h huses hstep => ⟨h.1.step host args a hstep,
        (keepsOwnership_of_usesPublished host args h.1 h.2 a huses).owned s' hstep⟩)
      (fun s a h huses => keepsOwnership_of_usesPublished host args h.1 h.2 a huses) _ actions
      ⟨accounted_startup blockchain version, owned_startup blockchain version⟩

/-- A step of a miner that nothing interrupts. -/
def mineOn : ThreadAction := .mine false sampleConditions

/-- The miner starts on the genesis block, the server switches to the sample
    chain, and the miner notices: the genesis chain is destroyed twice. -/
theorem replacedChain_releasedTwice :
    ∃ s, Run.run (threadStep sampleHost sampleArgs) (.startup ⟨[sampleGenesis], 2⟩ 0)
        (mineOn :: handOver (sampleRequest sampleChain sampleChain_small) ++
          List.replicate 5 mineOn) = some s ∧
      s.destroyed = [0, 0] ∧ s.syncBlockchain = 1 := by
  rcases sampleRequest_replaces with ⟨hundisturbed, hreplaces⟩
  have hhand := handOver_run sampleHost sampleArgs
    { Threads.startup ⟨[sampleGenesis], 2⟩ 0 with miner := .loopTest 0 (.ok ()) } _ sampleChain rfl
    Nat.zero_lt_one hundisturbed hreplaces
  refine ⟨_, (Run.run_append _ _ _ _).mpr ⟨_, (Run.run_cons _ _ _ _).mpr ⟨_, ?_, hhand⟩, rfl⟩,
    rfl, rfl⟩
  rfl

end LeoCoin
