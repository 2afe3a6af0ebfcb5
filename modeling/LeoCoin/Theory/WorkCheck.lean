import LeoCoin.Theory.Validity

/-!
# Work Check

The two ways a digest is checked for leading zeros.

The miners run a loop that stops at the first byte other than zero, and the
verifier compares the digest with an array of zeros. Both go by the number of
zeros the chain requires, which is any 64-bit number, and neither compares that
number with the size of a digest. Up to that size they are the same check.

Beyond it they are not. The loop then looks at the stack behind its argument
and the comparison at the stack behind two local variables, so what they accept
depends on what lies there, and it differs for some contents.

## Main definitions

* `workLoop`: The loop of the miners, with the positions it looks at.
* `WorkChecksAgree`: Both checks accept the same digests.
* `WorkLoopInside`: The loop looks at positions of the digest only.
* `ComparisonInside`: The comparison is not longer than a digest.
* `oneBehindArgument`: A host on which the two checks differ.

## Theorems

* `workLoop_fst`: The loop decides what the check decides.
* `workLoop_lt`: The loop stays below its bound.
* `workLoop_zeros`: Over zeros the loop looks at every position.
* `workChecksAgree_iff`, `workLoopInside_iff`: The condition is exact.
* `workChecks_iff`: It is the same for each part.
-/

namespace LeoCoin

/-- The loop of `blockchain_is_valid_block_hash` from position `idx` on: its
    verdict and the positions it looks at. -/
def workLoop (digest : Nat → UInt8) : (remaining idx : Nat) → Bool × List Nat
  | 0, _ => (true, [])
  | remaining + 1, idx =>
    if digest idx ≠ 0 then (false, [idx])
    else
      let rest := workLoop digest remaining (idx + 1)
      (rest.1, idx :: rest.2)

/-- The loop over the digest a miner checks. -/
def hashLoop (host : Host) (c : Blockchain) (hash : Sha256) : Bool × List Nat :=
  workLoop (extend hash.toList host.afterHashArgument)
    c.numLeadingZeroBytesRequiredInBlockHash.toNat 0

/-- The miners and the verifier accept the same digests. -/
def WorkChecksAgree (c : Blockchain) : Prop :=
  ∀ host hash, (hashLoop host c hash).1 = true ↔
    PassesWorkCheck host c.numLeadingZeroBytesRequiredInBlockHash hash

/-- The loop of the miners looks at positions of the digest only. -/
def WorkLoopInside (c : Blockchain) : Prop :=
  ∀ host hash, ∀ idx ∈ (hashLoop host c hash).2, idx < SHA256_DIGEST_LENGTH

/-- The length passed to `memcmp` is at most the size of either operand. -/
def ComparisonInside (c : Blockchain) : Prop :=
  c.numLeadingZeroBytesRequiredInBlockHash.toNat ≤ SHA256_DIGEST_LENGTH

theorem workLoop_fst_from (digest : Nat → UInt8) (n idx : Nat) :
    (workLoop digest n idx).1 = true ↔ ∀ i, idx ≤ i → i < idx + n → digest i = 0 := by
  induction n generalizing idx with
  | zero =>
      refine iff_of_true rfl ?_
      intro i hle hlt
      omega
  | succ n ih =>
      unfold workLoop
      by_cases hzero : digest idx = 0
      · rw [if_neg (not_not.mpr hzero), ih (idx + 1)]
        constructor
        · intro h i hle hlt
          -- The first position is the one just checked.
          rcases Nat.eq_or_lt_of_le hle with heq | hgt
          · rw [← heq]
            exact hzero
          · exact h i hgt (by omega)
        · intro h i hle hlt
          exact h i (by omega) (by omega)
      · rw [if_pos hzero]
        refine iff_of_false (by simp only [Bool.false_eq_true, not_false_eq_true]) ?_
        intro h
        exact hzero (h idx (Nat.le_refl idx) (by omega))

/-- The verdict of the loop is the verdict of the check. -/
theorem workLoop_fst (host : Host) (c : Blockchain) (hash : Sha256) :
    (hashLoop host c hash).1 = blockchainIsValidBlockHash host c hash := by
  rw [Bool.eq_iff_iff, hashLoop, workLoop_fst_from, blockchainIsValidBlockHash,
    List.all_eq_true]
  refine forall_congr' ?_
  intro i
  simp only [Nat.zero_le, true_implies, Nat.zero_add, List.mem_range, beq_iff_eq]

/-- The loop stays below its bound. -/
theorem workLoop_lt (digest : Nat → UInt8) (n idx : Nat) :
    ∀ i ∈ (workLoop digest n idx).2, i < idx + n := by
  induction n generalizing idx with
  | zero => exact fun i hi => absurd hi List.not_mem_nil
  | succ n ih =>
      intro i hi
      unfold workLoop at hi
      by_cases hzero : digest idx = 0
      · rw [if_neg (not_not.mpr hzero)] at hi
        rcases List.mem_cons.mp hi with heq | hrest
        · omega
        · have hlt := ih (idx + 1) i hrest
          omega
      · rw [if_pos hzero] at hi
        have heq := List.mem_singleton.mp hi
        omega

/-- The loop looks at a position if all bytes before it are zero. -/
theorem workLoop_zeros (digest : Nat → UInt8) (n idx i : Nat) (hle : idx ≤ i)
    (hlt : i < idx + n) (hzeros : ∀ k, k < i → digest k = 0) :
    i ∈ (workLoop digest n idx).2 := by
  induction n generalizing idx with
  | zero => omega
  | succ n ih =>
      unfold workLoop
      by_cases hzero : digest idx = 0
      · rw [if_neg (not_not.mpr hzero)]
        rcases Nat.eq_or_lt_of_le hle with heq | hgt
        · rw [heq]
          exact List.mem_cons_self
        · exact List.mem_cons_of_mem _ (ih (idx + 1) hgt (by omega))
      · rw [if_pos hzero]
        -- The loop can only stop here if this is the position in question.
        have heq : i = idx := by
          by_contra hne
          exact hzero (hzeros idx (by omega))
        rw [heq]
        exact List.mem_cons_self

/-- The digest of 32 zero bytes continues with whatever lies behind it. -/
theorem extend_zero_of_lt (beyond : Nat → UInt8) (i : Nat) (h : i < SHA256_DIGEST_LENGTH) :
    extend (Bytes.zero SHA256_DIGEST_LENGTH).toList beyond i = 0 := by
  rw [extend_of_lt _ _ _ (by rw [Sha256.toList_length]; exact h)]
  exact List.getElem_replicate _

/-- A host with a one behind the argument of the miners' check, and zeros
    behind the operands of the comparison. -/
def oneBehindArgument : Host := { sampleHost with afterHashArgument := fun _ => 1 }

/-- Beyond the size of a digest, the two checks differ on that host. The digest
    of zeros passes the comparison, and the loop meets a byte behind it. -/
theorem oneBehindArgument_differs (c : Blockchain)
    (h : SHA256_DIGEST_LENGTH < c.numLeadingZeroBytesRequiredInBlockHash.toNat) :
    (hashLoop oneBehindArgument c (Bytes.zero SHA256_DIGEST_LENGTH)).1 = false ∧
      PassesWorkCheck oneBehindArgument c.numLeadingZeroBytesRequiredInBlockHash
        (Bytes.zero SHA256_DIGEST_LENGTH) := by
  refine ⟨?_, ?_⟩
  · rw [← Bool.not_eq_true, hashLoop, workLoop_fst_from]
    intro hall
    have hone := hall SHA256_DIGEST_LENGTH (Nat.zero_le _) (by omega)
    exact absurd hone (by decide)
  · rw [PassesWorkCheck, memcmp_eq_zero_iff]
    intro i _
    rfl

theorem workChecksAgree_iff (c : Blockchain) : WorkChecksAgree c ↔
    c.numLeadingZeroBytesRequiredInBlockHash.toNat ≤ SHA256_DIGEST_LENGTH := by
  constructor
  · intro h
    by_contra hc
    rcases oneBehindArgument_differs c (Nat.not_le.mp hc) with ⟨hloop, hcompare⟩
    have htrue := (h oneBehindArgument _).mpr hcompare
    rw [hloop] at htrue
    exact absurd htrue Bool.false_ne_true
  · intro hd host hash
    rw [workLoop_fst]
    exact isValidBlockHash_iff host c hash hd

theorem workLoopInside_iff (c : Blockchain) : WorkLoopInside c ↔
    c.numLeadingZeroBytesRequiredInBlockHash.toNat ≤ SHA256_DIGEST_LENGTH := by
  constructor
  · intro h
    by_contra hc
    -- Over a digest of zeros, the loop goes on to the first position behind it.
    have hread := workLoop_zeros
      (extend (Bytes.zero SHA256_DIGEST_LENGTH).toList sampleHost.afterHashArgument)
      c.numLeadingZeroBytesRequiredInBlockHash.toNat 0 SHA256_DIGEST_LENGTH (Nat.zero_le _)
      (by omega) (extend_zero_of_lt _)
    have hlt := h sampleHost (Bytes.zero SHA256_DIGEST_LENGTH) _ hread
    exact absurd hlt (Nat.lt_irrefl _)
  · intro hd host hash idx hidx
    have hlt := workLoop_lt _ _ _ idx hidx
    omega

/-- Each part of the agreement between the two checks holds exactly if the
    chain requires no more zero bytes than a digest has. -/
theorem workChecks_iff (c : Blockchain) :
    (WorkChecksAgree c ↔
      c.numLeadingZeroBytesRequiredInBlockHash.toNat ≤ SHA256_DIGEST_LENGTH) ∧
    (WorkLoopInside c ↔
      c.numLeadingZeroBytesRequiredInBlockHash.toNat ≤ SHA256_DIGEST_LENGTH) ∧
    (ComparisonInside c ↔
      c.numLeadingZeroBytesRequiredInBlockHash.toNat ≤ SHA256_DIGEST_LENGTH) :=
  ⟨workChecksAgree_iff c, workLoopInside_iff c, Iff.rfl⟩

/-- A new chain of difficulty 33 has none of the three properties. -/
theorem blockchainCreate_workChecks :
    ∃ c, blockchainCreate .generous 0 33 = .ok c ∧
      ¬ WorkChecksAgree c ∧ ¬ WorkLoopInside c ∧ ¬ ComparisonInside c := by
  have hlong : ¬ ((33 : UInt64).toNat ≤ SHA256_DIGEST_LENGTH) := by decide
  refine ⟨⟨[], 33⟩, by decide, ?_, ?_, hlong⟩
  · rw [workChecksAgree_iff]
    exact hlong
  · rw [workLoopInside_iff]
    exact hlong

end LeoCoin
