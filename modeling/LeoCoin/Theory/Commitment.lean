import LeoCoin.Theory.Validity

/-!
# Commitment

The digest of the last block commits to the whole chain.

The argument runs backwards. Two last blocks with one digest are equal, as the
digest has no collision among the blocks in question and its preimage
determines the block. Equal blocks store equal digests of their predecessors,
so the predecessors have one digest too, and so on down to the first block.

What has to be excluded is that one chain ends before the other. The first
block of a valid chain has no transactions and every later block has one, so
the first block of the shorter chain cannot be an inner block of the longer.

Collision freedom is asked of the blocks of the two chains only. A digest of
fixed size cannot be injective on every block there could be, so a stronger
hypothesis would have no instance.

## Main definitions

* `IsHistory`: The block list of a nonempty chain reported valid.
* `CollisionFree`: No two blocks of two chains share a digest by accident.

## Theorems

* `isHistory_concat`: The last block is the first, or succeeds another.
* `isHistory_ext`: Histories with one final digest are equal.
* `tipHash_commits`: The digest of the last block determines the chain.
-/

namespace LeoCoin

/-- A genesis block followed by blocks that each succeed the one before. -/
def IsHistory (host : Host) (blocks : List Block) : Prop :=
  ∃ d genesis rest, blocks = genesis :: rest ∧ IsGenesis genesis ∧
    List.IsChain (Succeeds host d) blocks

/-- Digests of blocks of two lists are equal only for equal preimages. -/
def CollisionFree (host : Host) (xs ys : List Block) : Prop :=
  ∀ x ∈ xs, ∀ y ∈ ys, host.ssl.sha256 (blockPreimage host x) =
    host.ssl.sha256 (blockPreimage host y) → blockPreimage host x = blockPreimage host y

theorem isHistory_of_reportsValid (host : Host) (c : Blockchain) (h : ReportsValid host c)
    (hne : c.blockList ≠ []) : IsHistory host c.blockList := by
  rcases (reportsValid_iff host c).mp h with hnil | ⟨genesis, rest, hbs, hgen, hchain⟩
  · exact absurd hnil hne
  · exact ⟨_, genesis, rest, hbs, hgen, hbs ▸ hchain⟩

/-- The last block of a history is its genesis block, or succeeds the last
    block of a shorter history. -/
theorem isHistory_concat (host : Host) (bs : List Block) (b : Block)
    (h : IsHistory host (bs ++ [b])) :
    (bs = [] ∧ IsGenesis b) ∨
      ∃ previous d, bs.getLast? = some previous ∧ IsHistory host bs ∧
        Succeeds host d previous b := by
  rcases h with ⟨d, genesis, rest, hbs, hgen, hchain⟩
  rcases bs with _ | ⟨x, xs⟩
  · rw [List.nil_append, List.cons.injEq] at hbs
    exact Or.inl ⟨rfl, hbs.1 ▸ hgen⟩
  · right
    rw [List.cons_append, List.cons.injEq] at hbs
    rw [List.isChain_append] at hchain
    have hlast : (x :: xs).getLast? = some ((x :: xs).getLast (List.cons_ne_nil x xs)) :=
      List.getLast?_eq_some_getLast _
    exact ⟨_, d, hlast, ⟨d, genesis, xs, by rw [hbs.1], hgen, hchain.1⟩,
      hchain.2.2 _ hlast b rfl⟩

/-- A block that succeeds another is no genesis block: it has a transaction. -/
theorem not_isGenesis_of_succeeds (host : Host) (d : UInt64) (previous b : Block)
    (h : Succeeds host d previous b) : ¬ IsGenesis b := by
  intro hgen
  rcases h.minted with ⟨mint, rest, htx, _⟩
  rw [hgen.transactionList] at htx
  exact absurd htx.symm (List.cons_ne_nil mint rest)

/-- Histories whose last blocks have one digest are equal. The induction takes
    the last block off the first history and matches it in the second. -/
theorem isHistory_ext (host : Host) (xs : List Block) :
    ∀ ys : List Block, IsHistory host xs → IsHistory host ys → CollisionFree host xs ys →
      (∀ x ∈ xs.getLast?, ∀ y ∈ ys.getLast?, blockHash host x = blockHash host y) → xs = ys := by
  induction xs using List.reverseRecOn with
  | nil =>
      intro ys hx _ _ _
      rcases hx with ⟨_, genesis, rest, hnil, _⟩
      exact absurd hnil.symm (List.cons_ne_nil genesis rest)
  | append_singleton xs x ih =>
      intro ys hx hy hfree hhash
      rcases List.eq_nil_or_concat ys with hnil | ⟨ys', y, hconcat⟩
      · rcases hy with ⟨_, genesis, rest, hcons, _⟩
        exact absurd (hnil ▸ hcons).symm (List.cons_ne_nil genesis rest)
      rw [List.concat_eq_append] at hconcat
      subst hconcat
      have hxmem : x ∈ xs ++ [x] := List.mem_append_right _ List.mem_cons_self
      have hymem : y ∈ ys' ++ [y] := List.mem_append_right _ List.mem_cons_self
      have hdigest := hhash x (by rw [List.getLast?_concat]; rfl) y
        (by rw [List.getLast?_concat]; rfl)
      -- One digest means one preimage, and that means one block.
      have hxy : x = y := blockPreimage_inj host x y (hfree x hxmem y hymem hdigest)
      subst hxy
      rcases isHistory_concat host xs x hx with ⟨hxs, hgen⟩ | ⟨px, dx, hpx, hhx, hsx⟩
      · rcases isHistory_concat host ys' x hy with ⟨hys, _⟩ | ⟨py, dy, _, _, hsy⟩
        · rw [hxs, hys]
        -- The block would be first in one chain and have a transaction in the other.
        · exact absurd hgen (not_isGenesis_of_succeeds host dy py x hsy)
      · rcases isHistory_concat host ys' x hy with ⟨_, hgen⟩ | ⟨py, dy, hpy, hhy, hsy⟩
        · exact absurd hgen (not_isGenesis_of_succeeds host dx px x hsx)
        · -- Both predecessors have the digest the block stores.
          have hprev : blockHash host px = blockHash host py := hsx.linked.symm.trans hsy.linked
          have hrest := ih ys' hhx hhy
            (fun a ha b hb => hfree a (List.mem_append_left _ ha) b (List.mem_append_left _ hb))
            (fun a ha b hb => by
              rw [hpx, Option.mem_some_iff] at ha
              rw [hpy, Option.mem_some_iff] at hb
              rw [← ha, ← hb]
              exact hprev)
          rw [hrest]

/-- The digest of the last block determines the chain: two nonempty valid
    chains with one final digest hold the same blocks, whatever their lengths
    and difficulties. In particular nothing before the last block can change
    while the last block stays. -/
theorem tipHash_commits (host : Host) (c c' : Blockchain) (tip tip' : Block)
    (hvalid : ReportsValid host c) (hvalid' : ReportsValid host c')
    (htip : c.blockList.getLast? = some tip) (htip' : c'.blockList.getLast? = some tip')
    (hfree : CollisionFree host c.blockList c'.blockList) :
    (blockHash host tip = blockHash host tip' → c.blockList = c'.blockList) ∧
      (tip = tip' → c.blockList = c'.blockList) := by
  have hne : ∀ (d : Blockchain) (t : Block), d.blockList.getLast? = some t → d.blockList ≠ [] :=
    fun d t h hnil => by
      rw [hnil] at h
      exact absurd h (by simp only [List.getLast?_nil, reduceCtorEq, not_false_eq_true])
  have hmain : blockHash host tip = blockHash host tip' → c.blockList = c'.blockList := by
    intro hhash
    refine isHistory_ext host _ _ (isHistory_of_reportsValid host c hvalid (hne c tip htip))
      (isHistory_of_reportsValid host c' hvalid' (hne c' tip' htip')) hfree ?_
    intro x hx y hy
    rw [htip, Option.mem_some_iff] at hx
    rw [htip', Option.mem_some_iff] at hy
    rw [← hx, ← hy]
    exact hhash
  exact ⟨hmain, fun htips => hmain (by rw [htips])⟩

/-- The blocks of the sample chain have different digests: the sample digest
    records the length of the preimage, and only one of them has transactions. -/
theorem sampleChain_collisionFree :
    CollisionFree sampleHost [sampleGenesis, sampleSuccessor sampleGenesis]
      [sampleGenesis, sampleSuccessor sampleGenesis] := by
  have hne : sampleHost.ssl.sha256 (blockPreimage sampleHost sampleGenesis) ≠
      sampleHost.ssl.sha256 (blockPreimage sampleHost (sampleSuccessor sampleGenesis)) := by
    intro h
    -- The preimages are 48 and 8776 bytes long, and differ in the last byte.
    have hlast := congrArg (fun d : Sha256 => d.toList.getLast?) h
    simp only [sampleHost, sampleSsl, List.Vector.toList_mk, List.getLast?_concat,
      Option.some.injEq, blockPreimage_length] at hlast
    exact absurd hlast (by decide)
  intro x hx y hy h
  rcases List.mem_pair.mp hx with rfl | rfl <;> rcases List.mem_pair.mp hy with rfl | rfl
  · rfl
  · exact absurd h hne
  · exact absurd h.symm hne
  · rfl

/-- Two valid chains of two blocks, at different difficulties. -/
theorem tipHash_commits_sample :
    (blockHash sampleHost (sampleSuccessor sampleGenesis) =
        blockHash sampleHost (sampleSuccessor sampleGenesis) →
      [sampleGenesis, sampleSuccessor sampleGenesis] =
        [sampleGenesis, sampleSuccessor sampleGenesis]) ∧
      (sampleSuccessor sampleGenesis = sampleSuccessor sampleGenesis →
        [sampleGenesis, sampleSuccessor sampleGenesis] =
          [sampleGenesis, sampleSuccessor sampleGenesis]) :=
  tipHash_commits sampleHost ⟨_, 2⟩ ⟨_, 3⟩ _ _ (sampleChain_reportsValid 2 (by decide))
    (sampleChain_reportsValid 3 (by decide)) rfl rfl sampleChain_collisionFree

end LeoCoin
