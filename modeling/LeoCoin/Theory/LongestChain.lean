import LeoCoin.Library.FirstMaximum
import LeoCoin.Library.Run
import LeoCoin.Theory.Consensus

/-!
# Longest Chain

What a sequence of requests leaves published.

One request either offers nothing acceptable, and changes nothing, or it offers
an acceptable chain, and the longer of that and the published chain is
published afterwards, the published one if they are equally long. The
difficulty never changes, so what is acceptable is the same throughout. A
sequence of requests is therefore a running choice by length, and its outcome
is the first maximum.

## Main definitions

* `consensusStep`: One request as a step on the published chain.
* `acceptedChain`: The acceptable chain a request offers, if any.

## Theorems

* `acceptedChain_eq_some_iff`: What acceptable means.
* `consensusStep_spec`: One request keeps the longer chain.
* `consensusRun_spec`: A sequence of requests is a running choice.
* `longestChain_law`: The outcome, and its independence of the order.
-/

namespace LeoCoin

/-- Handle one request, keeping only the published chain. -/
def consensusStep (host : Host) (printProgress : Bool) (sync : SynchronizedBlockchain)
    (r : Request) : Option SynchronizedBlockchain :=
  (handleOneConsensusRequest host printProgress sync r).map (·.sync)

/-- The chain a request offers, if it is valid and of the given difficulty. -/
def acceptedChain (host : Host) (d : UInt64) (r : Request) : Option Blockchain :=
  match receivePeerBlockchain host.byteOrder r with
  | some (.ok (_, peer)) =>
    match blockchainVerify host peer with
    | .ok verdict =>
      if verdict.isValidBlockchain ∧ peer.numLeadingZeroBytesRequiredInBlockHash = d then some peer
      else none
    | .error _ => none
  | _ => none

theorem acceptedChain_eq_some_iff (host : Host) (d : UInt64) (r : Request) (h : Undisturbed r)
    (peer : Blockchain) :
    acceptedChain host d r = some peer ↔ Offers host.byteOrder r peer ∧ ReportsValid host peer ∧
      peer.numLeadingZeroBytesRequiredInBlockHash = d := by
  unfold acceptedChain
  rcases receivePeerBlockchain_cases host.byteOrder r h with
    ⟨interruption, hrecv, hnone⟩ | ⟨command, c, hrecv, _, _, hone⟩
  · rw [hrecv]
    exact ⟨fun hn => absurd hn (by simp only [reduceCtorEq, not_false_eq_true]),
      fun ho => absurd ho.1 (hnone peer)⟩
  · rw [hrecv, hone]
    simp only []
    unfold ReportsValid
    constructor
    · intro haccept
      rcases hverify : blockchainVerify host c with code | verdict
      · rw [hverify] at haccept
        exact absurd haccept (by simp only [reduceCtorEq, not_false_eq_true])
      · simp only [hverify] at haccept
        by_cases hok : verdict.isValidBlockchain = true ∧
            c.numLeadingZeroBytesRequiredInBlockHash = d
        · rw [if_pos hok, Option.some.injEq] at haccept
          rw [← haccept]
          exact ⟨rfl, ⟨verdict, hverify, hok.1⟩, hok.2⟩
        · rw [if_neg hok] at haccept
          exact absurd haccept (by simp only [reduceCtorEq, not_false_eq_true])
    · rintro ⟨rfl, ⟨verdict, hverify, hvalid⟩, hd⟩
      simp only [hverify, hvalid, hd, and_self, if_true]

/-- The chain published after a request: the longer of the published and the
    accepted one. -/
theorem consensusStep_spec (host : Host) (printProgress : Bool) (sync : SynchronizedBlockchain)
    (r : Request) (h : Undisturbed r) :
    ∃ sync', consensusStep host printProgress sync r = some sync' ∧
      sync'.blockchain.numLeadingZeroBytesRequiredInBlockHash =
        sync.blockchain.numLeadingZeroBytesRequiredInBlockHash ∧
      sync'.blockchain =
        (acceptedChain host sync.blockchain.numLeadingZeroBytesRequiredInBlockHash
          r).toList.foldl (keepMax fun c => c.blockList.length) sync.blockchain := by
  rcases handleOneConsensusRequest_spec host printProgress sync r h with ⟨out, hout, hsync, _⟩
  refine ⟨out.sync, by rw [consensusStep, hout]; rfl, ?_⟩
  have hiff := acceptedChain_eq_some_iff host
    sync.blockchain.numLeadingZeroBytesRequiredInBlockHash r h
  rcases hsync with ⟨peer, hr, hnew⟩ | ⟨hnone, hsame⟩
  · -- The accepted chain is longer, so it is the one that is kept.
    rw [(hiff peer).mpr ⟨hr.offered, hr.valid, hr.difficulty.symm⟩, hnew]
    refine ⟨hr.difficulty.symm, ?_⟩
    simp only [Option.toList_some, List.foldl_cons, List.foldl_nil, keepMax]
    rw [if_pos hr.longer]
  · rw [hsame]
    refine ⟨rfl, ?_⟩
    rcases haccept : acceptedChain host sync.blockchain.numLeadingZeroBytesRequiredInBlockHash r
      with _ | peer
    · rfl
    · rcases (hiff peer).mp haccept with ⟨hoffered, hvalid, hd⟩
      simp only [Option.toList_some, List.foldl_cons, List.foldl_nil, keepMax]
      rw [if_neg fun hlonger => hnone peer ⟨hoffered, hvalid, hlonger, hd.symm⟩]

/-- A sequence of requests is a running choice over the accepted chains. -/
theorem consensusRun_spec (host : Host) (printProgress : Bool) (d : UInt64) (rs : List Request)
    (h : ∀ r ∈ rs, Undisturbed r) (sync : SynchronizedBlockchain)
    (hd : sync.blockchain.numLeadingZeroBytesRequiredInBlockHash = d) :
    ∃ final, Run.run (consensusStep host printProgress) sync rs = some final ∧
      final.blockchain = (rs.filterMap (acceptedChain host d)).foldl
        (keepMax fun c => c.blockList.length) sync.blockchain := by
  induction rs generalizing sync with
  | nil => exact ⟨sync, rfl, rfl⟩
  | cons r rs ih =>
      rcases consensusStep_spec host printProgress sync r (h r List.mem_cons_self) with
        ⟨sync', hstep, hd', hchain⟩
      rcases ih (fun r' hr' => h r' (List.mem_cons_of_mem r hr')) sync' (hd'.trans hd) with
        ⟨final, hrun, hfinal⟩
      refine ⟨final, (Run.run_cons _ _ _ _).mpr ⟨sync', hstep, hrun⟩, ?_⟩
      -- Requests that offer nothing acceptable drop out of the choice.
      rw [hfinal, hchain, hd]
      rcases haccept : acceptedChain host d r with _ | peer
      · rw [List.filterMap_cons_none haccept]
        rfl
      · rw [List.filterMap_cons_some haccept]
        rfl

/-- Order independence: after any requests, the published chain is the first of
    the longest among the chain at the start and the accepted chains in the
    order of arrival. Its length is the same for every order of the requests,
    and so is the chain if only one of them is that long. -/
theorem longestChain_law (host : Host) (printProgress : Bool) (sync : SynchronizedBlockchain)
    (rs : List Request) (h : ∀ r ∈ rs, Undisturbed r) :
    ∃ candidates final,
      candidates = sync.blockchain :: rs.filterMap
        (acceptedChain host sync.blockchain.numLeadingZeroBytesRequiredInBlockHash) ∧
      Run.run (consensusStep host printProgress) sync rs = some final ∧
      candidates.argmax (fun c => c.blockList.length) = some final.blockchain ∧
      ∀ rs', rs.Perm rs' → ∃ final',
        Run.run (consensusStep host printProgress) sync rs' = some final' ∧
        final'.blockchain.blockList.length = final.blockchain.blockList.length ∧
        ((∀ x ∈ candidates, ∀ y ∈ candidates,
          x.blockList.length = final.blockchain.blockList.length →
          y.blockList.length = final.blockchain.blockList.length → x = y) →
            final'.blockchain = final.blockchain) := by
  rcases consensusRun_spec host printProgress _ rs h sync rfl with ⟨final, hrun, hfinal⟩
  have hmax := foldl_keepMax (fun c : Blockchain => c.blockList.length) sync.blockchain
    (rs.filterMap (acceptedChain host sync.blockchain.numLeadingZeroBytesRequiredInBlockHash))
  rw [← hfinal] at hmax
  refine ⟨_, final, rfl, hrun, hmax, ?_⟩
  intro rs' hperm
  rcases consensusRun_spec host printProgress _ rs' (fun r hr => h r (hperm.mem_iff.mpr hr)) sync
    rfl with ⟨final', hrun', hfinal'⟩
  have hmax' := foldl_keepMax (fun c : Blockchain => c.blockList.length) sync.blockchain
    (rs'.filterMap (acceptedChain host sync.blockchain.numLeadingZeroBytesRequiredInBlockHash))
  rw [← hfinal'] at hmax'
  -- Reordering the requests reorders the candidates behind the first.
  have hcandidates := (hperm.filterMap (acceptedChain host
    sync.blockchain.numLeadingZeroBytesRequiredInBlockHash)).cons sync.blockchain
  exact ⟨final', hrun', argmax_perm_value _ hcandidates hmax hmax',
    argmax_perm_eq _ hcandidates hmax hmax'⟩

/-- A node that receives the sample chain twice and then nothing usable. -/
theorem longestChain_law_sample :
    ∃ candidates final,
      candidates = sampleStart.blockchain ::
        [sampleRequest sampleChain sampleChain_small,
          sampleRequest sampleChain sampleChain_small, deliver []].filterMap
            (acceptedChain sampleHost 2) ∧
      Run.run (consensusStep sampleHost false) sampleStart
        [sampleRequest sampleChain sampleChain_small,
          sampleRequest sampleChain sampleChain_small, deliver []] = some final ∧
      candidates.argmax (fun c => c.blockList.length) = some final.blockchain := by
  have hsample := (sampleRequest_offers .little sampleChain sampleChain_small
    sampleChain_signaturesFit).1
  have hnothing : Undisturbed (deliver []) :=
    ⟨rfl, Allocator.generous_grants _ (Nat.le_refl _), fun _ _ hrecv =>
      absurd hrecv (by simp only [deliver, List.map_nil, sizeofCommandHeader, recvAll,
        reduceCtorEq, not_false_eq_true])⟩
  rcases longestChain_law sampleHost false sampleStart
    [sampleRequest sampleChain sampleChain_small, sampleRequest sampleChain sampleChain_small,
      deliver []] (List.forall_mem_cons.mpr ⟨hsample, List.forall_mem_cons.mpr
        ⟨hsample, List.forall_mem_singleton.mpr hnothing⟩⟩) with
    ⟨candidates, final, hc, hrun, hmax, _⟩
  exact ⟨candidates, final, hc, hrun, hmax⟩

end LeoCoin
