import LeoCoin.Core.PeerSweep

/-!
# Peer Sweep on Lists

The loop on nodes does what the sweep of a list does.

In the middle of the loop the list falls into the cells behind the loop, which
are kept, and those ahead of it. The pointer `prev` is at the last cell behind,
and `node` at the first one ahead. A round that keeps its node moves it behind.
A round that removes its node redirects the pointer before it, which is the one
of the last cell behind or that of the list, and leaves the cells behind.

So the loop takes one round for each cell and cannot meet a node that does not
exist. What it leaves is a list again, and holds what the sweep on lists keeps.

## Main definitions

* `Walks`: The cells behind the loop and those ahead of it.
* `RemovalPrints`: What removing a peer prints.

## Theorems

* `unlinkNode_walks`, `freeNode_walks`: Removing a node.
* `advanceNode_walks`: Going on to the next node.
* `sweepRound_keeps`, `sweepRound_removes`, `sweepRound_fails`: What a round
  does.
* `sweepLoop_walks`: What the loop does from the middle on.
* `sweepLoop_sweepPeers`: The loop refines the sweep on lists.
-/

namespace LeoCoin

open NodeList

/-- The loop has the given cells behind it and ahead of it. -/
structure Walks (w : SweepState) (kept ahead : List (Nat × PeerRecord)) : Prop where
  distinct : ((kept ++ ahead).map Prod.fst).Nodup
  behind : Segment w.nodes w.head kept w.node
  rest : Segment w.nodes w.node ahead none
  prev : w.prev = kept.getLast?.map Prod.fst

/-- Removing a peer prints these lines: none, or the one that tells of it. -/
def RemovalPrints (order : ByteOrder) (args : BootstrapArgs) (r : PeerRequest)
    (peer : PeerRecord) (lines : List String) : Prop :=
  (args.printProgress = false ∧ lines = []) ∨
    (args.printProgress = true ∧ ∃ line, lines = [line] ∧
      peerLine order r (.removal peer.name) "removed" peer.info = .ok line)

/-- Removing a peer prints something or nothing, or the peer cannot be looked
    up for it. -/
theorem removalPrints_or (order : ByteOrder) (args : BootstrapArgs) (r : PeerRequest)
    (peer : PeerRecord) :
    (∃ lines, RemovalPrints order args r peer lines) ∨
      (args.printProgress = true ∧
        ∃ code, peerLine order r (.removal peer.name) "removed" peer.info = .error code) := by
  by_cases hprint : args.printProgress = true
  · rcases hline : peerLine order r (.removal peer.name) "removed" peer.info with code | line
    · exact Or.inr ⟨hprint, code, rfl⟩
    · exact Or.inl ⟨[line], Or.inr ⟨hprint, line, rfl, hline⟩⟩
  · exact Or.inl ⟨[], Or.inl ⟨Bool.eq_false_of_not_eq_true hprint, rfl⟩⟩

/-- The sweep of a list that begins with a peer that is removed. -/
theorem sweepPeers_removes (order : ByteOrder) (args : BootstrapArgs) (r : PeerRequest)
    (peer : PeerRecord) (rest : List PeerRecord)
    (hexpired : peerExpired args r.swept peer.info = true) (lines : List String)
    (hlines : RemovalPrints order args r peer lines) :
    let swept := sweepPeers order args r rest
    sweepPeers order args r (peer :: rest) =
      { swept with
        released := peer.name :: swept.released
        printed := lines ++ swept.printed } := by
  intro swept
  rw [sweepPeers, if_pos hexpired]
  rcases hlines with ⟨hquiet, rfl⟩ | ⟨hprint, line, rfl, hline⟩
  · simp only [hquiet, Bool.false_eq_true, not_false_eq_true, if_true, List.nil_append]
    rfl
  · simp only [hprint, not_true_eq_false, if_false, hline, List.singleton_append]
    rfl

section Rounds

variable {w : SweepState} {kept ahead : List (Nat × PeerRecord)} {a : Nat} {peer : PeerRecord}

/-- The other cells are at distinct addresses, and at none of them is the cell
    at the loop. -/
theorem Walks.distinct_middle (h : Walks w kept ((a, peer) :: ahead)) :
    a ∉ (kept ++ ahead).map Prod.fst ∧ ((kept ++ ahead).map Prod.fst).Nodup := by
  have hmiddle := h.distinct
  rw [List.map_append, List.map_cons, List.nodup_middle, List.nodup_cons] at hmiddle
  rw [List.map_append]
  exact hmiddle

/-- Taking out the node at the loop joins the cells behind it with those ahead
    of it. -/
theorem unlinkNode_walks (h : Walks w kept ((a, peer) :: ahead)) (node : Node PeerRecord)
    (hnode : w.nodes a = some node) :
    node.data = peer ∧ ∃ u, unlinkNode w node = some u ∧
      Segment u.nodes u.head kept node.next ∧ Segment u.nodes node.next ahead none ∧
      u.prev = w.prev ∧ u.released = w.released ∧ u.printed = w.printed := by
  rcases h.rest with ⟨_, next, hat, hahead⟩
  rw [hnode, Option.some.injEq] at hat
  subst hat
  refine ⟨rfl, ?_⟩
  rcases List.eq_nil_or_concat kept with hnil | ⟨cells, ⟨p, x⟩, hconcat⟩
  · -- There is nothing behind the loop, so the head is written.
    subst hnil
    have hprev : w.prev = none := h.prev
    refine ⟨{ w with head := next }, ?_, rfl, hahead, rfl, rfl, rfl⟩
    rw [unlinkNode, hprev]
  · rw [List.concat_eq_append] at hconcat
    subst hconcat
    have hprev : w.prev = some p := by
      rw [h.prev, List.getLast?_concat]
      rfl
    have hdistinct := h.distinct_middle.2
    rw [List.map_append, List.map_append, List.map_singleton, List.nodup_append] at hdistinct
    have hp : p ∉ cells.map Prod.fst := by
      intro hmem
      have hcells := List.nodup_append.mp hdistinct.1
      exact hcells.2.2 p hmem p (List.mem_singleton.mpr rfl) rfl
    have hpahead : p ∉ ahead.map Prod.fst := by
      intro hmem
      exact hdistinct.2.2 p (List.mem_append_right _ (List.mem_singleton.mpr rfl)) p hmem rfl
    rcases h.behind.redirect hp next with ⟨hredirect, hkept⟩
    refine ⟨{ w with nodes := Function.update w.nodes p (some ⟨x, next⟩) }, ?_, hkept,
      hahead.update p _ hpahead, rfl, rfl, rfl⟩
    rw [unlinkNode, hprev]
    simp only [hredirect]

/-- Freeing the node and going on leaves the loop between the same cells. -/
theorem freeNode_walks (u : SweepState) (node : Node PeerRecord)
    (hdistinct : ((kept ++ ahead).map Prod.fst).Nodup) (ha : a ∉ (kept ++ ahead).map Prod.fst)
    (hkept : Segment u.nodes u.head kept node.next)
    (hahead : Segment u.nodes node.next ahead none)
    (hprev : u.prev = kept.getLast?.map Prod.fst) :
    ∃ w', advanceNode (freeNode u a node) = some w' ∧ Walks w' kept ahead ∧
      w'.released = u.released ++ [node.data.name] ∧ w'.printed = u.printed := by
  rw [List.map_append, List.mem_append, not_or] at ha
  have hkept' := hkept.update a none ha.1
  have hahead' := hahead.update a none ha.2
  rcases List.eq_nil_or_concat kept with hnil | ⟨cells, ⟨p, x⟩, hconcat⟩
  · subst hnil
    have hnone : u.prev = none := hprev
    have hhead : u.head = node.next := hkept
    refine ⟨{ freeNode u a node with node := u.head }, ?_, ⟨hdistinct, rfl, ?_, hprev⟩, rfl, rfl⟩
    · simp only [advanceNode, freeNode, hnone]
    · simp only [freeNode, hhead]
      exact hahead'
  · rw [List.concat_eq_append] at hconcat
    subst hconcat
    have hsome : u.prev = some p := by
      rw [hprev, List.getLast?_concat]
      rfl
    -- The cell before the loop points to the cells ahead already.
    rcases (segment_append _ _ _ _ _).mp hkept' with ⟨middle, _, _, next, hp, rfl⟩
    refine ⟨{ freeNode u a node with prev := some p, node := node.next }, ?_,
      ⟨hdistinct, hkept', hahead', ?_⟩, rfl, rfl⟩
    · simp only [advanceNode, freeNode, release, hsome, hp]
    · rw [List.getLast?_concat]
      rfl

/-- Going on moves the node at the loop behind it. -/
theorem advanceNode_walks (h : Walks w kept ((a, peer) :: ahead)) :
    ∃ w', advanceNode w = some w' ∧ Walks w' (kept ++ [(a, peer)]) ahead ∧
      w'.released = w.released ∧ w'.printed = w.printed := by
  rcases h.rest with ⟨hnode, next, hat, hahead⟩
  refine ⟨{ w with prev := some a, node := next }, ?_, ⟨?_, ?_, hahead, ?_⟩, rfl, rfl⟩
  · simp only [advanceNode, hnode, hat]
  · rw [List.append_assoc]
    exact h.distinct
  · exact (segment_append _ _ _ _ _).mpr ⟨w.node, h.behind, hnode, next, hat, rfl⟩
  · rw [List.getLast?_concat]
    rfl

variable (order : ByteOrder) (args : BootstrapArgs) (r : PeerRequest)

/-- A round moves a node behind the loop that has not expired. -/
theorem sweepRound_keeps (h : Walks w kept ((a, peer) :: ahead))
    (hexpired : ¬ peerExpired args r.swept peer.info = true) :
    ∃ w', sweepRound order args r w a = some (.ok (), w') ∧ Walks w' (kept ++ [(a, peer)]) ahead ∧
      w'.released = w.released ∧ w'.printed = w.printed := by
  rcases h.rest with ⟨_, next, hat, _⟩
  rcases advanceNode_walks h with ⟨w', hadvance, hwalks⟩
  refine ⟨w', ?_, hwalks⟩
  rw [sweepRound, hat]
  simp only [if_neg hexpired, hadvance, Option.map_some]

/-- A round removes a node that has expired, unless its peer cannot be looked
    up for the screen. -/
theorem sweepRound_removes (h : Walks w kept ((a, peer) :: ahead))
    (hexpired : peerExpired args r.swept peer.info = true) (lines : List String)
    (hlines : RemovalPrints order args r peer lines) :
    ∃ w', sweepRound order args r w a = some (.ok (), w') ∧ Walks w' kept ahead ∧
      w'.released = w.released ++ [peer.name] ∧ w'.printed = w.printed ++ lines := by
  rcases h.rest with ⟨_, next, hat, _⟩
  rcases unlinkNode_walks h ⟨peer, next⟩ hat with
    ⟨_, u, hunlink, hkept, hahead, hprev, hreleased, hprinted⟩
  rcases hlines with ⟨hquiet, rfl⟩ | ⟨hprint, line, rfl, hline⟩
  · rcases freeNode_walks u ⟨peer, next⟩ h.distinct_middle.2 h.distinct_middle.1 hkept hahead
      (hprev.trans h.prev) with ⟨w', hfree, hwalks, hreleased', hprinted'⟩
    refine ⟨w', ?_, hwalks, by rw [hreleased', hreleased],
      by rw [hprinted', hprinted, List.append_nil]⟩
    rw [sweepRound, hat]
    simp only [if_pos hexpired, hunlink, hquiet, Bool.false_eq_true, not_false_eq_true, if_true,
      hfree, Option.map_some]
  · rcases freeNode_walks { u with printed := u.printed ++ [line] } ⟨peer, next⟩
      h.distinct_middle.2 h.distinct_middle.1 hkept hahead (hprev.trans h.prev) with
      ⟨w', hfree, hwalks, hreleased', hprinted'⟩
    refine ⟨w', ?_, hwalks, by rw [hreleased', hreleased], by rw [hprinted', hprinted]⟩
    rw [sweepRound, hat]
    simp only [if_pos hexpired, hunlink, hprint, not_true_eq_false, if_false, hline, hfree,
      Option.map_some]

/-- If the peer cannot be looked up, the node is out of the list and the loop
    ends. -/
theorem sweepRound_fails (h : Walks w kept ((a, peer) :: ahead))
    (hexpired : peerExpired args r.swept peer.info = true) (hprint : args.printProgress = true)
    (code : ReturnCode)
    (hline : peerLine order r (.removal peer.name) "removed" peer.info = .error code) :
    ∃ w', sweepRound order args r w a = some (.error code, w') ∧
      Segment w'.nodes w'.head (kept ++ ahead) none ∧
      w'.released = w.released ∧ w'.printed = w.printed := by
  rcases h.rest with ⟨_, next, hat, _⟩
  rcases unlinkNode_walks h ⟨peer, next⟩ hat with
    ⟨_, u, hunlink, hkept, hahead, _, hreleased, hprinted⟩
  refine ⟨u, ?_, (segment_append _ _ _ _ _).mpr ⟨next, hkept, hahead⟩, hreleased, hprinted⟩
  rw [sweepRound, hat]
  simp only [if_pos hexpired, hunlink, hprint, not_true_eq_false, if_false, hline]

/-- From the middle on, with a round for each cell ahead, the loop does to those
    cells what the sweep does to their peers. -/
theorem sweepLoop_walks (ahead : List (Nat × PeerRecord)) (rounds : Nat)
    (hrounds : ahead.length ≤ rounds) (w : SweepState) (kept : List (Nat × PeerRecord))
    (h : Walks w kept ahead) :
    let swept := sweepPeers order args r (ahead.map Prod.snd)
    ∃ w' cells, sweepLoop order args r rounds w = some (swept.ending, w') ∧
      Segment w'.nodes w'.head (kept ++ cells) none ∧ cells.map Prod.snd = swept.peerInfoList ∧
      w'.released = w.released ++ swept.released ∧ w'.printed = w.printed ++ swept.printed := by
  induction ahead generalizing rounds w kept with
  | nil =>
      have hend : w.node = none := h.rest
      refine ⟨w, [], ?_, ?_, rfl, (List.append_nil _).symm, (List.append_nil _).symm⟩
      · unfold sweepLoop
        rw [hend]
        rfl
      · rw [List.append_nil, ← hend]
        exact h.behind
  | cons cell ahead ih =>
      rcases cell with ⟨a, peer⟩
      rcases rounds with _ | rounds
      · exact absurd hrounds (by simp only [List.length_cons]; omega)
      have hless : ahead.length ≤ rounds := by
        rw [List.length_cons] at hrounds
        omega
      have hat : w.node = some a := h.rest.1
      rw [List.map_cons, sweepLoop, hat]
      by_cases hexpired : peerExpired args r.swept peer.info = true
      · rcases removalPrints_or order args r peer with ⟨lines, hlines⟩ | ⟨hprint, code, hline⟩
        · rcases sweepRound_removes order args r h hexpired lines hlines with
            ⟨w', hround, hwalks, hreleased, hprinted⟩
          rcases ih rounds hless w' kept hwalks with
            ⟨w'', cells, hloop, hsegment, hpeers, hreleased', hprinted'⟩
          rw [sweepPeers_removes order args r peer _ hexpired lines hlines]
          simp only [hround]
          refine ⟨w'', cells, hloop, hsegment, hpeers, ?_, ?_⟩
          · rw [hreleased', hreleased, List.append_assoc, List.singleton_append]
          · rw [hprinted', hprinted, List.append_assoc]
        · rcases sweepRound_fails order args r h hexpired hprint code hline with
            ⟨w', hround, hsegment, hreleased, hprinted⟩
          rw [sweepPeers, if_pos hexpired, if_neg (not_not.mpr hprint), hline]
          simp only [hround]
          exact ⟨w', ahead, rfl, hsegment, rfl, by rw [hreleased, List.append_nil],
            by rw [hprinted, List.append_nil]⟩
      · rcases sweepRound_keeps order args r h hexpired with
          ⟨w', hround, hwalks, hreleased, hprinted⟩
        rcases ih rounds hless w' _ hwalks with
          ⟨w'', cells, hloop, hsegment, hpeers, hreleased', hprinted'⟩
        rw [sweepPeers, if_neg hexpired]
        simp only [hround]
        refine ⟨w'', (a, peer) :: cells, hloop, ?_, ?_, ?_, ?_⟩
        · rw [List.append_assoc, List.singleton_append] at hsegment
          exact hsegment
        · rw [List.map_cons, hpeers]
        · rw [hreleased', hreleased]
        · rw [hprinted', hprinted]

end Rounds

/-- On a list that lies in memory in distinct cells, the loop comes to an end
    after a round for each cell. It ends like the sweep of the list of peers,
    leaves a list of the peers that the sweep keeps, and frees and prints the
    same. -/
theorem sweepLoop_sweepPeers (order : ByteOrder) (args : BootstrapArgs) (r : PeerRequest)
    (nodes : Nodes PeerRecord) (head : Option Nat) (cells : List (Nat × PeerRecord))
    (hlist : Segment nodes head cells none) (hdistinct : (cells.map Prod.fst).Nodup) :
    let swept := sweepPeers order args r (cells.map Prod.snd)
    ∃ w' cells', sweepLoop order args r cells.length ⟨nodes, head, none, head, [], []⟩ =
        some (swept.ending, w') ∧
      Segment w'.nodes w'.head cells' none ∧ cells'.map Prod.snd = swept.peerInfoList ∧
      w'.released = swept.released ∧ w'.printed = swept.printed :=
  sweepLoop_walks order args r cells cells.length (Nat.le_refl _)
    ⟨nodes, head, none, head, [], []⟩ [] ⟨hdistinct, rfl, hlist, rfl⟩

end LeoCoin
