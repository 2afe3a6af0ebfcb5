import LeoCoin.Theory.PeerSweep

/-!
# What the Sweep Does with Memory

The loop that removes expired peers filters the list, and no node that it frees
is used again.

The loop is taken without printing and with any test for expired peers. In its
middle it uses the nodes of the list only, those behind it and those ahead of
it. A node that it frees is none of them from then on, and so nothing that
follows can be a use of that node.

## Main definitions

* `freedNodes`, `freedRecords`: What was freed, in order.
* `UsedAfter`: A use of a node behind its release.

## Theorems

* `quietRound_keeps`, `quietRound_removes`: A round.
* `quietLoop_walks`: The loop from its middle on.
* `sweepLoop_quietLoop`: The loop as it is, with the test that it makes.
* `sweepLoop_filters`: The loop is a filter and uses no freed node.
-/

namespace LeoCoin

open NodeList

/-- The nodes that were freed, in order. -/
def freedNodes (uses : List MemoryUse) : List Nat :=
  uses.filterMap fun use => match use with
    | .freeNode a => some a
    | _ => none

/-- The records that were freed, in order. -/
def freedRecords (uses : List MemoryUse) : List Nat :=
  uses.filterMap fun use => match use with
    | .freeRecord name => some name
    | _ => none

/-- The node that is used, if the use is not one of a record. -/
def MemoryUse.node : MemoryUse → Option Nat
  | .access a => some a
  | .freeNode a => some a
  | .freeRecord _ => none

/-- The first use frees the node that the second one is a use of. -/
def UsedAfter (earlier later : MemoryUse) : Prop :=
  ∃ a, earlier = .freeNode a ∧ later.node = some a

theorem freedNodes_append (uses later : List MemoryUse) :
    freedNodes (uses ++ later) = freedNodes uses ++ freedNodes later :=
  List.filterMap_append

theorem freedRecords_append (uses later : List MemoryUse) :
    freedRecords (uses ++ later) = freedRecords uses ++ freedRecords later :=
  List.filterMap_append

theorem removalUses_freed (prev : Option Nat) (a name : Nat) :
    freedNodes (removalUses prev a name) = [a] ∧
      freedRecords (removalUses prev a name) = [name] := by
  cases prev with
  | none => exact ⟨rfl, rfl⟩
  | some p => exact ⟨rfl, rfl⟩

theorem removalUses_node (prev : Option Nat) (a name b : Nat) (use : MemoryUse)
    (huse : use ∈ removalUses prev a name) (hb : use.node = some b) : b = a ∨ prev = some b := by
  cases prev with
  | none =>
      simp only [removalUses, Option.toList_none, List.map_nil, List.cons_append, List.nil_append,
        List.mem_cons, List.not_mem_nil, or_false] at huse
      rcases huse with rfl | rfl | rfl
      · exact Or.inl (Option.some.inj hb).symm
      · exact absurd hb (by simp only [MemoryUse.node, reduceCtorEq, not_false_eq_true])
      · exact Or.inl (Option.some.inj hb).symm
  | some p =>
      simp only [removalUses, Option.toList_some, List.map_cons, List.map_nil, List.cons_append,
        List.nil_append, List.mem_cons, List.not_mem_nil, or_false] at huse
      rcases huse with rfl | rfl | rfl | rfl | rfl
      · exact Or.inl (Option.some.inj hb).symm
      · exact Or.inr hb
      · exact absurd hb (by simp only [MemoryUse.node, reduceCtorEq, not_false_eq_true])
      · exact Or.inl (Option.some.inj hb).symm
      · exact Or.inr hb

/-- What frees no node may come before anything. -/
theorem notUsedAfter_cons (use : MemoryUse) (later : List MemoryUse)
    (huse : ∀ a, use ≠ .freeNode a) (h : later.Pairwise fun u v => ¬ UsedAfter u v) :
    (use :: later).Pairwise fun u v => ¬ UsedAfter u v := by
  refine List.pairwise_cons.mpr ⟨?_, h⟩
  intro _ _ hused
  rcases hused with ⟨a, heq, _⟩
  exact huse a heq

/-- A node may be freed before uses of other nodes. -/
theorem notUsedAfter_freeNode (a : Nat) (later : List MemoryUse)
    (hlater : ∀ use ∈ later, use.node ≠ some a)
    (h : later.Pairwise fun u v => ¬ UsedAfter u v) :
    (.freeNode a :: later).Pairwise fun u v => ¬ UsedAfter u v := by
  refine List.pairwise_cons.mpr ⟨?_, h⟩
  intro use huse hused
  rcases hused with ⟨b, heq, hnode⟩
  rw [MemoryUse.freeNode.injEq] at heq
  exact hlater use huse (heq ▸ hnode)

/-- A node may be removed before uses of other nodes. -/
theorem notUsedAfter_removalUses (prev : Option Nat) (a name : Nat) (later : List MemoryUse)
    (hprev : prev ≠ some a) (hlater : ∀ use ∈ later, use.node ≠ some a)
    (h : later.Pairwise fun u v => ¬ UsedAfter u v) :
    (removalUses prev a name ++ later).Pairwise fun u v => ¬ UsedAfter u v := by
  cases prev with
  | none =>
      refine notUsedAfter_cons _ _ (fun _ => nofun) (notUsedAfter_cons _ _ (fun _ => nofun) ?_)
      exact notUsedAfter_freeNode a later hlater h
  | some p =>
      refine notUsedAfter_cons _ _ (fun _ => nofun) (notUsedAfter_cons _ _ (fun _ => nofun)
        (notUsedAfter_cons _ _ (fun _ => nofun) ?_))
      refine notUsedAfter_freeNode a (.access p :: later) ?_
        (notUsedAfter_cons _ _ (fun _ => nofun) h)
      intro use huse
      rcases List.mem_cons.mp huse with rfl | huse
      · exact hprev
      · exact hlater use huse

/-- The cells of expired peers, and those of the others. -/
def goneCells (expired : PeerInfo → Bool) (cells : List (Nat × PeerRecord)) :
    List (Nat × PeerRecord) :=
  cells.filter fun cell => expired cell.2.info

def keptCells (expired : PeerInfo → Bool) (cells : List (Nat × PeerRecord)) :
    List (Nat × PeerRecord) :=
  cells.filter fun cell => !expired cell.2.info

section Rounds

variable (expired : PeerInfo → Bool) {w : SweepState} {kept ahead : List (Nat × PeerRecord)}
  {a : Nat} {peer : PeerRecord}

theorem quietRound_keeps (h : Walks w kept ((a, peer) :: ahead)) (hkeep : ¬ expired peer.info) :
    ∃ w', quietRound expired w a = some ([.access a], w') ∧
      Walks w' (kept ++ [(a, peer)]) ahead := by
  rcases h.rest with ⟨_, next, hat, _⟩
  rcases advanceNode_walks h with ⟨w', hadvance, hwalks, _⟩
  refine ⟨w', ?_, hwalks⟩
  rw [quietRound, hat]
  simp only [if_neg hkeep, hadvance, Option.map_some]

theorem quietRound_removes (h : Walks w kept ((a, peer) :: ahead)) (hexpired : expired peer.info) :
    ∃ w', quietRound expired w a =
        some (removalUses w.prev a peer.name, w') ∧
      Walks w' kept ahead := by
  rcases h.rest with ⟨_, next, hat, _⟩
  rcases unlinkNode_walks h ⟨peer, next⟩ hat with ⟨_, u, hunlink, hkept, hahead, hprev, _⟩
  rcases freeNode_walks u ⟨peer, next⟩ h.distinct_middle.2 h.distinct_middle.1 hkept hahead
    (hprev.trans h.prev) with ⟨w', hfree, hwalks, _⟩
  refine ⟨w', ?_, hwalks⟩
  rw [quietRound, hat]
  simp only [if_pos hexpired, hunlink, hfree, Option.map_some]

/-- The node before the loop is one of the cells behind it. -/
theorem Walks.prev_mem (h : Walks w kept ahead) (p : Nat) (hp : w.prev = some p) :
    p ∈ kept.map Prod.fst := by
  rw [h.prev, ← List.getLast?_map] at hp
  exact List.mem_of_getLast? hp

/-- From the middle on, the loop keeps the cells ahead that have not expired and
    frees the others in order. It uses no nodes but the cells, and none after it
    was freed. -/
theorem quietLoop_walks (ahead : List (Nat × PeerRecord)) (rounds : Nat)
    (hrounds : ahead.length ≤ rounds) (w : SweepState) (kept : List (Nat × PeerRecord))
    (h : Walks w kept ahead) :
    ∃ uses w', quietLoop expired rounds w = some (uses, w') ∧
      Segment w'.nodes w'.head (kept ++ keptCells expired ahead) none ∧
      freedNodes uses = (goneCells expired ahead).map Prod.fst ∧
      freedRecords uses = (goneCells expired ahead).map (fun cell => cell.2.name) ∧
      (∀ use ∈ uses, ∀ b, use.node = some b → b ∈ (kept ++ ahead).map Prod.fst) ∧
      uses.Pairwise (fun u v => ¬ UsedAfter u v) := by
  induction ahead generalizing rounds w kept with
  | nil =>
      have hend : w.node = none := h.rest
      refine ⟨[], w, ?_, ?_, rfl, rfl, ?_, List.Pairwise.nil⟩
      · unfold quietLoop
        rw [hend]
      · rw [keptCells, List.filter_nil, List.append_nil, ← hend]
        exact h.behind
      · intro use huse
        exact absurd huse List.not_mem_nil
  | cons cell ahead ih =>
      rcases cell with ⟨a, peer⟩
      rcases rounds with _ | rounds
      · exact absurd hrounds (Nat.not_succ_le_zero _)
      have hless : ahead.length ≤ rounds := Nat.le_of_succ_le_succ hrounds
      have hat : w.node = some a := h.rest.1
      have hnodes : ∀ b ∈ (kept ++ ahead).map Prod.fst,
          b ∈ (kept ++ (a, peer) :: ahead).map Prod.fst := by
        intro b hb
        rw [List.map_append, List.mem_append] at hb ⊢
        exact hb.imp_right (List.mem_cons_of_mem _)
      have ha : a ∈ (kept ++ (a, peer) :: ahead).map Prod.fst := by
        rw [List.map_append]
        exact List.mem_append_right _ List.mem_cons_self
      rw [quietLoop, hat]
      by_cases hexpired : expired peer.info = true
      · rcases quietRound_removes expired h hexpired with ⟨w', hround, hwalks⟩
        rcases ih rounds hless w' kept hwalks with
          ⟨uses, w'', hloop, hsegment, hfreed, hrecords, huses, hpairwise⟩
        have hremoval := removalUses_freed w.prev a peer.name
        have hgone : goneCells expired ((a, peer) :: ahead) =
            (a, peer) :: goneCells expired ahead := List.filter_cons_of_pos hexpired
        have hkept : keptCells expired ((a, peer) :: ahead) = keptCells expired ahead :=
          List.filter_cons_of_neg (by simp only [hexpired, Bool.not_true, Bool.false_eq_true,
            not_false_eq_true])
        refine ⟨removalUses w.prev a peer.name ++ uses, w'', ?_, ?_, ?_, ?_, ?_, ?_⟩
        · simp only [hround, hloop, Option.map_some]
        · rw [hkept]
          exact hsegment
        · rw [freedNodes_append, hremoval.1, hfreed, hgone]
          rfl
        · rw [freedRecords_append, hremoval.2, hrecords, hgone]
          rfl
        · intro use huse b hb
          rcases List.mem_append.mp huse with huse | huse
          · rcases removalUses_node _ _ _ b use huse hb with rfl | hprev
            · exact ha
            · rw [List.map_append]
              exact List.mem_append_left _ (h.prev_mem b hprev)
          · exact hnodes b (huses use huse b hb)
        · refine notUsedAfter_removalUses w.prev a peer.name uses ?_ ?_ hpairwise
          · intro hprev
            refine h.distinct_middle.1 ?_
            rw [List.map_append]
            exact List.mem_append_left _ (h.prev_mem a hprev)
          · intro use huse heq
            exact h.distinct_middle.1 (huses use huse a heq)
      · rcases quietRound_keeps expired h hexpired with ⟨w', hround, hwalks⟩
        rcases ih rounds hless w' _ hwalks with
          ⟨uses, w'', hloop, hsegment, hfreed, hrecords, huses, hpairwise⟩
        rw [List.append_assoc, List.singleton_append] at hsegment huses
        have hgone : goneCells expired ((a, peer) :: ahead) = goneCells expired ahead :=
          List.filter_cons_of_neg hexpired
        have hkept : keptCells expired ((a, peer) :: ahead) =
            (a, peer) :: keptCells expired ahead :=
          List.filter_cons_of_pos (by rw [Bool.eq_false_of_not_eq_true hexpired, Bool.not_false])
        refine ⟨.access a :: uses, w'', ?_, ?_, ?_, ?_, ?_, ?_⟩
        · simp only [hround, hloop, Option.map_some, List.singleton_append]
        · rw [hkept]
          exact hsegment
        · rw [hgone]
          exact hfreed
        · rw [hgone]
          exact hrecords
        · intro use huse b hb
          rcases List.mem_cons.mp huse with rfl | huse
          · exact (Option.some.inj hb) ▸ ha
          · exact huses use huse b hb
        · exact notUsedAfter_cons _ _ (fun _ => nofun) hpairwise

end Rounds

/-- The loop as it is, if it prints nothing, with the test that it makes. -/
theorem sweepLoop_quietLoop (order : ByteOrder) (args : BootstrapArgs) (r : PeerRequest)
    (hquiet : args.printProgress = false) (rounds : Nat) (w : SweepState) :
    sweepLoop order args r rounds w =
      (quietLoop (peerExpired args r.swept) rounds w).map fun (_, w') => (.ok (), w') := by
  induction rounds generalizing w with
  | zero =>
      unfold sweepLoop quietLoop
      cases w.node with
      | none => rfl
      | some a => rfl
  | succ rounds ih =>
      unfold sweepLoop quietLoop
      cases w.node with
      | none => rfl
      | some a =>
          have hround : sweepRound order args r w a =
              (quietRound (peerExpired args r.swept) w a).map fun (_, w') => (.ok (), w') := by
            rw [sweepRound, quietRound]
            cases w.nodes a with
            | none => rfl
            | some node =>
                by_cases hexpired : peerExpired args r.swept node.data.info = true
                · simp only [if_pos hexpired, hquiet, Bool.false_eq_true, not_false_eq_true,
                    if_true]
                  cases unlinkNode w node with
                  | none => rfl
                  | some u =>
                      simp only [Option.map_map]
                      rfl
                · simp only [if_neg hexpired, Option.map_map]
                  rfl
          simp only [hround]
          cases quietRound (peerExpired args r.swept) w a with
          | none => rfl
          | some round =>
              simp only [Option.map_some, ih, Option.map_map]
              rfl

/-- On a list that lies in memory in distinct cells, whatever it takes for a peer
    to have expired, the loop ends. It leaves the cells of the other peers in
    their order, as those that can be reached from the head. It frees the node
    and the record of each expired peer, in order, and uses no node that it has
    freed. Without printing, `handle_one_peer_discovery_request` takes this loop. -/
theorem sweepLoop_filters (expired : PeerInfo → Bool) (nodes : Nodes PeerRecord)
    (head : Option Nat) (cells : List (Nat × PeerRecord))
    (hlist : Segment nodes head cells none) (hdistinct : (cells.map Prod.fst).Nodup)
    (rounds : Nat) (hrounds : cells.length ≤ rounds) :
    ∃ uses w', quietLoop expired rounds ⟨nodes, head, none, head, [], []⟩ = some (uses, w') ∧
      Segment w'.nodes w'.head (keptCells expired cells) none ∧
      (∀ a, Reachable w'.nodes w'.head a ↔ a ∈ (keptCells expired cells).map Prod.fst) ∧
      freedNodes uses = (goneCells expired cells).map Prod.fst ∧
      freedRecords uses = (goneCells expired cells).map (fun cell => cell.2.name) ∧
      uses.Pairwise (fun u v => ¬ UsedAfter u v) ∧
      ∀ order args r, args.printProgress = false → expired = peerExpired args r.swept →
        sweepLoop order args r rounds ⟨nodes, head, none, head, [], []⟩ = some (.ok (), w') := by
  rcases quietLoop_walks expired cells rounds hrounds ⟨nodes, head, none, head, [], []⟩ []
    ⟨hdistinct, rfl, hlist, rfl⟩ with
    ⟨uses, w', hloop, hsegment, hfreed, hrecords, _, hpairwise⟩
  refine ⟨uses, w', hloop, hsegment, hsegment.reachable_iff, hfreed, hrecords, hpairwise, ?_⟩
  intro order args r hquiet hexpired
  rw [sweepLoop_quietLoop order args r hquiet, ← hexpired, hloop]
  rfl

/-- A peer that last connected at a time. -/
def samplePeer (lastConnected : Int64) : PeerRecord :=
  ⟨1, ⟨⟨10, 2718, 0, Bytes.zero 16, 0⟩, lastConnected⟩⟩

/-- A list of two peers, at the addresses 16 and 32. -/
def sampleNodes : Nodes PeerRecord
  | 16 => some ⟨samplePeer 0, some 32⟩
  | 32 => some ⟨samplePeer 9, none⟩
  | _ => none

/-- The first of two peers has expired, and its node is freed. -/
theorem sweepLoop_filters_two :
    ∃ uses w', quietLoop (fun peer => peer.lastConnected == 0) 2
        ⟨sampleNodes, some 16, none, some 16, [], []⟩ = some (uses, w') ∧
      freedNodes uses = [16] ∧ ∀ a, Reachable w'.nodes w'.head a ↔ a ∈ [32] := by
  rcases sweepLoop_filters (fun peer => peer.lastConnected == 0) sampleNodes (some 16)
    [(16, samplePeer 0), (32, samplePeer 9)] ⟨rfl, some 32, rfl, rfl, none, rfl, rfl⟩ (by decide) 2
    (by decide) with ⟨uses, w', hloop, _, hreachable, hfreed, _⟩
  exact ⟨uses, w', hloop, hfreed, hreachable⟩

end LeoCoin
