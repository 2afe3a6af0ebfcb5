import LeoCoin.Core.MiningThread
import LeoCoin.Theory.Validity

/-!
# The First Invalid Block

Which block the verifier names when it finds a chain invalid.

The verifier leaves its loop at the first block that violates the rules. Every
exit but one stores that block through the pointer of the caller. The exit for a
block without transactions does not, and the mining thread goes on to read the
block through a null pointer.

That exit is taken exactly when a block without transactions is the first to
violate the rules and meets those that are checked before.

## Main definitions

* `MeetsRule`: The documented rule for the block at one position.
* `Verdict.pointer`: What the caller's pointer holds after the call.
* `NamesFirstInvalid`: A false verdict names the first block that violates the
  rules.
* `EmptyBlockFirst`: The condition under which it does not.

## Theorems

* `verifyBlock_exit`: How a round ends the loop.
* `verifyBlocks_exit`, `verifyBlocks_emptyBlock`: Where the loop ends.
* `namesFirstInvalid_iff`: The condition is exact.
-/

namespace LeoCoin

/-- The block at a position exists and meets the documented rule. -/
def MeetsRule (host : Host) (c : Blockchain) : Nat → Prop
  | 0 => ∃ genesis, c.blockList[0]? = some genesis ∧ IsGenesis genesis
  | i + 1 => ∃ previous b, c.blockList[i]? = some previous ∧ c.blockList[i + 1]? = some b ∧
      IsSuccessor host c.numLeadingZeroBytesRequiredInBlockHash previous b

/-- What the caller's pointer holds after the call, if it held `first` before: a
    block, by its position, or null. -/
def Verdict.pointer (v : Verdict) (first : Option Nat) : Option Nat :=
  v.firstInvalidBlock.or first

/-- A false verdict names the first block that violates the rules, a true one
    leaves the pointer, and the mining thread follows no null pointer. -/
structure NamesFirstInvalid (host : Host) (c : Blockchain) : Prop where
  invalid : ∀ v first, blockchainVerify host c = .ok v → v.isValidBlockchain = false →
    ∃ idx, v.pointer first = some idx ∧ idx < c.blockList.length ∧ ¬ MeetsRule host c idx ∧
      ∀ i < idx, MeetsRule host c i
  valid : ∀ v first, blockchainVerify host c = .ok v → v.isValidBlockchain = true →
    v.pointer first = first
  followed : ∀ args m version, mineBlocksIteration host args m ⟨c, version⟩ ≠ none

/-- A block has proof of work and the digest of the block before it, but no
    transactions. -/
structure IsEmptySuccessor (host : Host) (d : UInt64) (previous b : Block) : Prop where
  proofOfWork : ∀ i, i < d.toNat → (blockHash host b).toList[i]? = some 0
  previousBlockHash : b.previousBlockHash = blockHash host previous
  transactionList : b.transactionList = []

/-- Behind blocks that all meet the rules is such a block. -/
def EmptyBlockFirst (host : Host) (c : Blockchain) : Prop :=
  ∃ i previous b, c.blockList[i]? = some previous ∧ c.blockList[i + 1]? = some b ∧
    (∀ j ≤ i, MeetsRule host c j) ∧
    IsEmptySuccessor host c.numLeadingZeroBytesRequiredInBlockHash previous b

section Rounds

variable (host : Host) (d : UInt64) (idx : Nat) (previous b : Block)

/-- A round that ends the loop names its block, unless the block has no
    transactions and passes the checks before. -/
theorem verifyBlock_exit (v : Verdict)
    (h : verifyBlock host d idx (blockHash host previous) b = .ok (some v)) :
    v = ⟨false, some idx⟩ ∨ v = ⟨false, none⟩ ∧ PassesWorkCheck host d (blockHash host b) ∧
      b.previousBlockHash = blockHash host previous ∧ b.transactionList = [] := by
  have hnamed : (Except.ok (some ⟨false, some idx⟩) : Except ReturnCode (Option Verdict)) =
      .ok (some v) → v = ⟨false, some idx⟩ := by
    intro heq
    rw [Except.ok.injEq, Option.some.injEq] at heq
    exact heq.symm
  rw [verifyBlock] at h
  split at h
  · exact Or.inl (hnamed h)
  rename_i hwork
  split at h
  · exact Or.inl (hnamed h)
  rename_i hlinked
  rw [not_not, memcmp_extend_eq_zero_iff] at hlinked
  split at h
  · -- The block has no transactions.
    rename_i hempty
    rw [Except.ok.injEq, Option.some.injEq] at h
    exact Or.inr ⟨h.symm, not_not.mp hwork, hlinked, hempty⟩
  split at h
  · exact Or.inl (hnamed h)
  split at h
  · exact absurd h (by simp only [reduceCtorEq, not_false_eq_true])
  · exact Or.inl (hnamed h)
  · exact absurd h (by simp only [Except.ok.injEq, reduceCtorEq, not_false_eq_true])

theorem verifyBlock_empty (hwork : PassesWorkCheck host d (blockHash host b))
    (hlinked : b.previousBlockHash = blockHash host previous) (hempty : b.transactionList = []) :
    verifyBlock host d idx (blockHash host previous) b = .ok (some ⟨false, none⟩) := by
  unfold PassesWorkCheck at hwork
  rw [verifyBlock, if_neg (not_not.mpr hwork),
    if_neg (not_not.mpr ((memcmp_extend_eq_zero_iff _ _ _ _).mpr hlinked)), hempty]

end Rounds

/-- An iteration of the mining thread has no outcome only if the verifier left
    the null pointer of the thread. -/
theorem mineBlocksIteration_none (host : Host) (args : MineBlocksArgs) (m : MiningConditions)
    (sync : SynchronizedBlockchain) (h : mineBlocksIteration host args m sync = none) :
    blockchainVerify host sync.blockchain = .ok ⟨false, none⟩ := by
  rw [mineBlocksIteration] at h
  split at h
  · exact absurd h (Option.some_ne_none _)
  · assumption
  · exact absurd h (Option.some_ne_none _)
  · split at h
    · exact absurd h (Option.some_ne_none _)
    · simp only at h
      split at h
      · exact absurd h (Option.some_ne_none _)
      · split at h
        · exact absurd h (Option.some_ne_none _)
        · exact absurd h (Option.some_ne_none _)

section Loop

variable (host : Host) (c : Blockchain)
  (hd : c.numLeadingZeroBytesRequiredInBlockHash.toNat ≤ SHA256_DIGEST_LENGTH)

include hd

omit hd in
/-- The two blocks behind some others, by their positions. -/
theorem blocks_at (before rest : List Block) (previous b : Block)
    (hlist : c.blockList = before ++ previous :: b :: rest) :
    c.blockList[before.length]? = some previous ∧
      c.blockList[before.length + 1]? = some b := by
  rw [hlist, List.getElem?_append_right (Nat.le_refl _), Nat.sub_self,
    List.getElem?_append_right (Nat.le_add_right _ 1), Nat.add_sub_cancel_left]
  exact ⟨rfl, rfl⟩

/-- The block behind some others meets the rule if it passes the checks. -/
theorem meetsRule_iff_succeeds (before rest : List Block) (previous b : Block)
    (hlist : c.blockList = before ++ previous :: b :: rest) :
    MeetsRule host c (before.length + 1) ↔
      Succeeds host c.numLeadingZeroBytesRequiredInBlockHash previous b := by
  rcases blocks_at c before rest previous b hlist with ⟨hprevious, hb⟩
  rw [succeeds_iff_isSuccessor host _ hd]
  constructor
  · rintro ⟨p, x, hp, hx, hrule⟩
    rw [hprevious, Option.some.injEq] at hp
    rw [hb, Option.some.injEq] at hx
    rw [hp, hx]
    exact hrule
  · intro hrule
    exact ⟨previous, b, hprevious, hb, hrule⟩

/-- The loop ends behind the last block, or at the first one that violates the
    rules. It names that one unless it is an empty successor. -/
theorem verifyBlocks_exit (bs before : List Block) (previous : Block)
    (hlist : c.blockList = before ++ previous :: bs)
    (hbefore : ∀ i ≤ before.length, MeetsRule host c i) (v : Verdict)
    (h : verifyBlocks host c.numLeadingZeroBytesRequiredInBlockHash (before.length + 1)
      (blockHash host previous) bs = .ok v) :
    v = ⟨true, none⟩ ∨ ∃ idx, idx < c.blockList.length ∧ ¬ MeetsRule host c idx ∧
      (∀ i < idx, MeetsRule host c i) ∧
      (v = ⟨false, some idx⟩ ∨ v = ⟨false, none⟩ ∧ EmptyBlockFirst host c) := by
  induction bs generalizing before previous with
  | nil =>
      rw [verifyBlocks, Except.ok.injEq] at h
      exact Or.inl h.symm
  | cons b bs ih =>
      have hrule := meetsRule_iff_succeeds host c hd before bs previous b hlist
      rw [verifyBlocks] at h
      rcases hround : verifyBlock host c.numLeadingZeroBytesRequiredInBlockHash
          (before.length + 1) (blockHash host previous) b with code | _ | w
      · rw [hround] at h
        exact absurd h (by simp only [reduceCtorEq, not_false_eq_true])
      · -- The block passes, and the loop goes on behind it.
        rw [hround] at h
        have hmeets := hrule.mpr ((verifyBlock_none_iff host _ _ previous b).mp hround)
        have hlist' : c.blockList = (before ++ [previous]) ++ b :: bs := by
          rw [hlist, List.append_assoc, List.singleton_append]
        refine ih (before ++ [previous]) b hlist' ?_ ?_
        · intro i hi
          rw [List.length_append, List.length_singleton] at hi
          rcases Nat.le_succ_iff.mp hi with hle | heq
          · exact hbefore i hle
          · exact heq ▸ hmeets
        · rw [List.length_append, List.length_singleton]
          exact h
      · -- The loop ends at this block.
        rw [hround, Except.ok.injEq] at h
        subst h
        have hfails : ¬ MeetsRule host c (before.length + 1) := by
          rw [hrule, ← verifyBlock_none_iff host _ (before.length + 1) previous b, hround]
          exact fun heq => absurd (Except.ok.inj heq) (Option.some_ne_none _)
        refine Or.inr ⟨before.length + 1, ?_, hfails, fun i hi => hbefore i (by omega), ?_⟩
        · rw [hlist, List.length_append, List.length_cons, List.length_cons]
          omega
        · rcases verifyBlock_exit host _ _ previous b w hround with
            hnamed | ⟨hnull, hwork, hlinked, hempty⟩
          · exact Or.inl hnamed
          · rcases blocks_at c before bs previous b hlist with ⟨hprevious, hb⟩
            exact Or.inr ⟨hnull, before.length, previous, b, hprevious, hb, hbefore,
              (leadingZeroes_iff host _ _ hd).mp hwork, hlinked, hempty⟩

/-- The loop ends without a name at an empty successor. -/
theorem verifyBlocks_emptyBlock (i : Nat) (p x : Block) (hp : c.blockList[i]? = some p)
    (hx : c.blockList[i + 1]? = some x) (hmeets : ∀ j ≤ i, MeetsRule host c j)
    (hempty : IsEmptySuccessor host c.numLeadingZeroBytesRequiredInBlockHash p x)
    (bs before : List Block) (previous : Block) (hlist : c.blockList = before ++ previous :: bs)
    (hi : before.length ≤ i) :
    verifyBlocks host c.numLeadingZeroBytesRequiredInBlockHash (before.length + 1)
      (blockHash host previous) bs = .ok ⟨false, none⟩ := by
  induction bs generalizing before previous with
  | nil =>
      rcases List.getElem?_eq_some_iff.mp hx with ⟨hlt, _⟩
      rw [hlist, List.length_append, List.length_singleton] at hlt
      omega
  | cons b bs ih =>
      rcases blocks_at c before bs previous b hlist with ⟨hprevious, hb⟩
      rw [verifyBlocks]
      by_cases heq : before.length = i
      · -- The loop has come to the block.
        subst heq
        rw [hprevious, Option.some.injEq] at hp
        rw [hb, Option.some.injEq] at hx
        subst hp hx
        rw [verifyBlock_empty host _ _ previous b
          ((leadingZeroes_iff host _ _ hd).mpr hempty.proofOfWork) hempty.previousBlockHash
          hempty.transactionList]
      · have hsucceeds := (meetsRule_iff_succeeds host c hd before bs previous b hlist).mp
          (hmeets (before.length + 1) (by omega))
        rw [(verifyBlock_none_iff host _ _ previous b).mpr hsucceeds]
        have hlist' : c.blockList = (before ++ [previous]) ++ b :: bs := by
          rw [hlist, List.append_assoc, List.singleton_append]
        have hrest := ih (before ++ [previous]) b hlist' (by
          rw [List.length_append, List.length_singleton]
          omega)
        rw [List.length_append, List.length_singleton] at hrest
        exact hrest

/-- The verifier finds the chain valid, or ends at the first block that violates
    the rules and names it unless it is an empty successor. -/
theorem blockchainVerify_exit (v : Verdict) (h : blockchainVerify host c = .ok v) :
    v = ⟨true, none⟩ ∨ ∃ idx, idx < c.blockList.length ∧ ¬ MeetsRule host c idx ∧
      (∀ i < idx, MeetsRule host c i) ∧
      (v = ⟨false, some idx⟩ ∨ v = ⟨false, none⟩ ∧ EmptyBlockFirst host c) := by
  rw [blockchainVerify] at h
  rcases hbs : c.blockList with _ | ⟨genesis, rest⟩
  · rw [hbs, Except.ok.injEq] at h
    exact Or.inl h.symm
  · rw [hbs] at h
    simp only at h
    have hhead : c.blockList[0]? = some genesis := by rw [hbs]; rfl
    by_cases hgenesis : IsGenesis genesis
    · rw [if_neg ((genesisCheck_iff host genesis).mpr hgenesis)] at h
      rw [← hbs]
      refine verifyBlocks_exit host c hd rest [] genesis hbs ?_ v h
      intro i hi
      rw [List.length_nil, Nat.le_zero] at hi
      exact hi ▸ ⟨genesis, hhead, hgenesis⟩
    · rw [if_pos (not_not.mp ((genesisCheck_iff host genesis).not.mpr hgenesis)),
        Except.ok.injEq] at h
      refine Or.inr ⟨0, Nat.zero_lt_succ _, ?_, fun i hi => absurd hi (Nat.not_lt_zero i),
        Or.inl h.symm⟩
      rintro ⟨g, hg, hrule⟩
      rw [hhead, Option.some.injEq] at hg
      exact hgenesis (hg ▸ hrule)

theorem blockchainVerify_emptyBlock (hempty : EmptyBlockFirst host c) :
    blockchainVerify host c = .ok ⟨false, none⟩ := by
  rcases hempty with ⟨i, p, x, hp, hx, hmeets, hsuccessor⟩
  rcases hmeets 0 (Nat.zero_le i) with ⟨genesis, hhead, hgenesis⟩
  rw [blockchainVerify]
  rcases hbs : c.blockList with _ | ⟨g, rest⟩
  · rw [hbs] at hhead
    exact absurd hhead (by simp only [List.getElem?_nil, reduceCtorEq, not_false_eq_true])
  · rw [hbs, List.getElem?_cons_zero, Option.some.injEq] at hhead
    simp only
    rw [if_neg ((genesisCheck_iff host g).mpr (hhead ▸ hgenesis))]
    exact verifyBlocks_emptyBlock host c hd i p x hp hx hmeets hsuccessor rest [] g hbs
      (Nat.zero_le i)

/-- Up to the size of a digest, a false verdict names the first block that
    violates the rules, and no null pointer is followed, exactly if that block
    is not one without transactions that meets the rules checked before. -/
theorem namesFirstInvalid_iff : NamesFirstInvalid host c ↔ ¬ EmptyBlockFirst host c := by
  constructor
  · intro h hempty
    -- The pointer of a caller that holds null stays null.
    rcases h.invalid ⟨false, none⟩ none (blockchainVerify_emptyBlock host c hd hempty) rfl with
      ⟨idx, hpointer, _⟩
    exact absurd hpointer (by simp only [Verdict.pointer, Option.or_none, reduceCtorEq,
      not_false_eq_true])
  · intro hempty
    refine ⟨?_, ?_, ?_⟩
    · intro v first hv hfalse
      rcases blockchainVerify_exit host c hd v hv with
        rfl | ⟨idx, hlt, hviolates, hbefore, rfl | ⟨_, hfirst⟩⟩
      · exact absurd hfalse (by simp only [Bool.true_eq_false, not_false_eq_true])
      · exact ⟨idx, rfl, hlt, hviolates, hbefore⟩
      · exact absurd hfirst hempty
    · intro v first hv htrue
      rcases blockchainVerify_exit host c hd v hv with rfl | ⟨idx, _, _, _, rfl | ⟨rfl, _⟩⟩
      · rfl
      · exact absurd htrue (by simp only [Bool.false_eq_true, not_false_eq_true])
      · exact absurd htrue (by simp only [Bool.false_eq_true, not_false_eq_true])
    · intro args m version hnone
      have hnull := mineBlocksIteration_none host args m ⟨c, version⟩ hnone
      rcases blockchainVerify_exit host c hd _ hnull with heq | ⟨idx, _, _, _, heq | ⟨_, hfirst⟩⟩
      · exact absurd heq (by simp only [Verdict.mk.injEq, Bool.false_eq_true, false_and,
          not_false_eq_true])
      · exact absurd heq (by simp only [Verdict.mk.injEq, reduceCtorEq, and_false,
          not_false_eq_true])
      · exact hempty hfirst

end Loop

/-- The condition on a chain of two blocks that requires three zeros. -/
theorem namesFirstInvalid_iff_sample :
    NamesFirstInvalid sampleHost ⟨[sampleGenesis, sampleSuccessor sampleGenesis], 3⟩ ↔
      ¬ EmptyBlockFirst sampleHost ⟨[sampleGenesis, sampleSuccessor sampleGenesis], 3⟩ :=
  namesFirstInvalid_iff sampleHost _ (by decide)

/-- A block behind the genesis block that has no transactions. -/
def sampleEmptyBlock : Block := { sampleSuccessor sampleGenesis with transactionList := [] }

/-- With such a block the chain is found invalid, and no block is named. -/
theorem sampleEmptyBlock_notNamed :
    ¬ NamesFirstInvalid sampleHost ⟨[sampleGenesis, sampleEmptyBlock], 3⟩ := by
  have hverdict : blockchainVerify sampleHost ⟨[sampleGenesis, sampleEmptyBlock], 3⟩ =
      .ok ⟨false, none⟩ := by decide
  intro h
  rcases h.invalid ⟨false, none⟩ none hverdict rfl with ⟨idx, hpointer, _⟩
  exact absurd hpointer (by simp only [Verdict.pointer, Option.or_none, reduceCtorEq,
    not_false_eq_true])

end LeoCoin
