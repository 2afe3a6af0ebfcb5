import LeoCoin.Core.DiscoverySystem
import LeoCoin.Library.SnapshotReads
import LeoCoin.Theory.Discovery
import LeoCoin.Theory.Servers

/-!
# Discovery System

What the clients know of each other, whatever the order of steps.

The table after each request is a version, and the requests are numbered. A
client that receives a list has been answered, so it has the table after a
request that was handled since it connected. That request is its own, whatever
else the server handled in between. The system is thus one of readers of
published versions: the server publishes with each request, and a client asks
when it connects. So no client is ever taken back to an earlier table.

If the server handles its requests undisturbed, then each version is known. The
list of a client holds, for each address and once, the last registration up to
its own, if it was alive then.

## Main definitions

* `Answered`: A request of the server with what the handler did.
* `HasVersion`: A list is the table after a request of the client.
* `Tracks`: The system as a system of readers.

## Theorems

* `replacePeerInfoList_cases`: The old list is in place, or the new one.
* `finish_received`: What a client has received.
* `discoveryStep_tracks`: Each step is one of the readers.
* `discoverySystem_law`: Any run, and any run after it.
* `discoverySystem_lastSeen`: What the clients know.
-/

namespace LeoCoin

open KeepAlive

/-- The replacement leaves the list in place or puts the new one there. -/
theorem replacePeerInfoList_cases (order : ByteOrder) (args : DiscoverPeersArgs)
    (r : DiscoveryAttempt) (peerInfoList newPeerInfoList : List PeerInfo) :
    (replacePeerInfoList order args r peerInfoList newPeerInfoList).2.1 = peerInfoList ∨
      (replacePeerInfoList order args r peerInfoList newPeerInfoList).2.1 = newPeerInfoList := by
  unfold replacePeerInfoList
  by_cases hlock : r.lock ≠ 0
  · rw [if_pos hlock]
    exact Or.inl rfl
  · rw [if_neg hlock]
    refine Or.inr ?_
    split
    · rfl
    · split
      · rfl
      · split
        · rfl
        · simp only
          split
          · rfl
          · rfl

/-- The test of the loop keeps the list, and no attempt goes on. -/
theorem discoverPeersTest_some {args : DiscoverPeersArgs} {test : LoopTest} {s : DiscoverPeersLoop}
    {client : DiscoveryClient} (h : discoverPeersTest args test s = some client) :
    client.loop.peerInfoList = s.peerInfoList ∧
      ∀ s' attempt reply, client ≠ .discovering s' attempt reply := by
  unfold discoverPeersTest at h
  by_cases hstop : ¬ test.shouldStop = true
  · rw [if_pos hstop, Option.some.injEq] at h
    rw [← h]
    exact ⟨rfl, fun _ _ _ => by simp only [ne_eq, reduceCtorEq, not_false_eq_true]⟩
  rw [if_neg hstop] at h
  by_cases hgrants : test.alloc.grants 0 sizeofReturnCode = true
  · rw [if_pos hgrants, Option.some.injEq] at h
    rw [← h]
    exact ⟨rfl, fun _ _ _ => by simp only [ne_eq, reduceCtorEq, not_false_eq_true]⟩
  · rw [if_neg hgrants] at h
    exact absurd h (by simp only [reduceCtorEq, not_false_eq_true])

/-- A round leaves the list of its attempt, and no attempt goes on. -/
theorem discoverPeersRound_some {order : ByteOrder} {args : DiscoverPeersArgs} {test : LoopTest}
    {attempt : DiscoveryAttempt} {s : DiscoverPeersLoop} {client : DiscoveryClient}
    (h : discoverPeersRound order args test attempt s = some client) :
    ∃ discovered, discoverPeersOnce order args s.peerInfoList attempt = some discovered ∧
      client.loop.peerInfoList = discovered.peerInfoList ∧
      ∀ s' attempt reply, client ≠ .discovering s' attempt reply := by
  unfold discoverPeersRound at h
  rcases hrun : discoverPeersOnce order args s.peerInfoList attempt with _ | discovered
  · rw [hrun] at h
    exact absurd h (by simp only [reduceCtorEq, not_false_eq_true])
  rw [hrun] at h
  refine ⟨discovered, rfl, ?_⟩
  simp only at h
  split at h
  · rw [Option.some.injEq] at h
    rw [← h]
    exact ⟨rfl, fun _ _ _ => by simp only [ne_eq, reduceCtorEq, not_false_eq_true]⟩
  · exact discoverPeersTest_some h
  · exact discoverPeersTest_some h

section Versions

variable {ι : Type} (p : DiscoveryParties ι)

/-- The server has handled request number `k`, as `handled` says. -/
structure Answered (served : List PeerRequest) (k : Nat) (request : PeerRequest)
    (handled : HandledPeer) : Prop where
  numbered : served[k]? = some request
  answer : ∃ before, serveRequests p.serverOrder p.bootstrap [] (served.take k) = some before ∧
    handleOnePeerDiscoveryRequest p.serverOrder p.bootstrap before request = some handled

/-- The list is the table after request number `k`, which is for the address of
    the client. That address is in it, unless its entry expired between the two
    readings of the clock. -/
def HasVersion (served : List PeerRequest) (i : ι) (k : Nat) (peerInfoList : List PeerInfo) :
    Prop :=
  ∃ request handled, Answered p served k request handled ∧
    (∃ b, registrationOf p.serverOrder request = some b ∧ b.key = (p.args i).peerAddr) ∧
    peerInfoList = handled.peerInfoList.map PeerRecord.info ∧
    ((request.swept.toInt - request.registered.toInt) * 10 ^ 6 ≤
        p.bootstrap.peerKeepaliveMicroseconds.toNat →
      ∃ peer ∈ peerInfoList, peer.listenAddr = (p.args i).peerAddr)

variable {p}

theorem Answered.lt {served : List PeerRequest} {k : Nat} {request : PeerRequest}
    {handled : HandledPeer} (h : Answered p served k request handled) : k < served.length :=
  (List.getElem?_eq_some_iff.mp h.numbered).1

/-- What has been answered stays so. -/
theorem Answered.append {served : List PeerRequest} {k : Nat} {request : PeerRequest}
    {handled : HandledPeer} (h : Answered p served k request handled) (rest : List PeerRequest) :
    Answered p (served ++ rest) k request handled where
  numbered := by
    rw [List.getElem?_append_left h.lt]
    exact h.numbered
  answer := by
    rw [List.take_append_of_le_length (Nat.le_of_lt h.lt)]
    exact h.answer

/-- The table after a request that has been answered. -/
theorem Answered.table {served : List PeerRequest} {k : Nat} {request : PeerRequest}
    {handled : HandledPeer} (h : Answered p served k request handled) :
    served.take (k + 1) = served.take k ++ [request] ∧
      serveRequests p.serverOrder p.bootstrap [] (served.take (k + 1)) =
        some handled.peerInfoList := by
  rcases h.answer with ⟨before, hbefore, hhandled⟩
  have htake : served.take (k + 1) = served.take k ++ [request] := by
    rw [List.take_add_one, h.numbered]
    rfl
  refine ⟨htake, ?_⟩
  rw [htake]
  refine (Run.run_append _ _ _ _).mpr ⟨before, hbefore, (Run.run_cons _ _ _ _).mpr ⟨_, ?_, rfl⟩⟩
  rw [hhandled, Option.map_some]

theorem HasVersion.append {served : List PeerRequest} {i : ι} {k : Nat}
    {peerInfoList : List PeerInfo} (h : HasVersion p served i k peerInfoList)
    (rest : List PeerRequest) : HasVersion p (served ++ rest) i k peerInfoList := by
  rcases h with ⟨request, handled, hanswered, hversion⟩
  exact ⟨request, handled, hanswered.append rest, hversion⟩

/-- A client that finishes an attempt has the list it had, or its connection has
    been answered and it has the table after that. -/
theorem finish_received
    (hcompare : p.bootstrap.compareFunction = some (comparePeerInfo p.serverOrder)) (i : ι)
    (peerInfoList : List PeerInfo) (attempt : DiscoveryAttempt) (reply : Option (List UInt8))
    (hcontent : content attempt.arrivals <+: reply.getD []) (discovered : Discovered)
    (hrun : discoverPeersOnce (p.clientOrder i) (p.args i) peerInfoList attempt =
      some discovered) :
    discovered.peerInfoList = peerInfoList ∨
      ∃ sent, reply = some sent ∧ ∀ served k request handled,
        Answered p served k request handled → handled.sent = sent →
        content request.arrivals <+: sentToServer p i attempt →
        HasVersion p served i k discovered.peerInfoList := by
  rcases discoverPeersOnce_cases (p.clientOrder i) (p.args i) peerInfoList attempt with
    ⟨discovered', hrun', hsent, ⟨_, hsame⟩ | ⟨newPeerInfoList, hreceive, _, hlist⟩⟩
  · rw [hrun, Option.some.injEq] at hrun'
    exact Or.inl (hrun' ▸ hsame)
  rw [hrun, Option.some.injEq] at hrun'
  rw [← hrun'] at hsent hlist
  rcases replacePeerInfoList_cases (p.clientOrder i) (p.args i) attempt peerInfoList
    newPeerInfoList with hold | hnew
  · exact Or.inl (hlist.trans hold)
  -- A list that was decoded did not come from nothing.
  have harrived := receivePeerList_content _ _ _ hreceive
  rcases reply with _ | sent
  · exact absurd (List.prefix_nil.mp hcontent) harrived
  refine Or.inr ⟨sent, rfl, ?_⟩
  intro served k request handled hanswered hreply htoServer
  rcases hanswered.answer with ⟨before, _, hhandled⟩
  -- The client's attempt and the server's request are one conversation.
  have htalk : Talk (p.clientOrder i) p.serverOrder (p.args i) peerInfoList attempt p.bootstrap
      before request discovered handled :=
    { client := hrun
      server := hhandled
      toServer := by
        rw [hsent]
        exact htoServer
      toClient := by
        rw [hreply]
        exact hcontent }
  rcases receivePeerList_talk hcompare htalk hsent newPeerInfoList hreceive with ⟨htable, hown⟩
  have hsome : handled.sent ≠ [] := by
    intro hnothing
    rw [← hreply, hnothing] at hcontent
    exact harrived (List.prefix_nil.mp hcontent)
  rcases handle_sent _ _ _ _ _ hhandled hsome with ⟨command, _, hcommand, _⟩
  refine ⟨request, handled, hanswered,
    ⟨⟨command.toSockaddrIn6, request.registered, request.swept⟩, ?_, ?_⟩, ?_, ?_⟩
  · rw [registrationOf, hcommand]
  · exact receiveRegisterPeer_frame _ _ _
      (htoServer.trans (requestRegistration_sent _ _ _)) command hcommand
  · rw [hlist, hnew, htable]
  · rw [hlist, hnew]
    exact hown

end Versions

section System

variable {ι : Type} (p : DiscoveryParties ι)

/-- A client has its list from the version it has seen, and what it is sent is
    from a version published since it asked. -/
structure TracksClient (served : List PeerRequest) (i : ι) (initial : List PeerInfo)
    (client : DiscoveryClient) (seen asked : Option Nat) : Prop where
  unseen : seen = none → client.loop.peerInfoList = initial
  seen : ∀ k, seen = some k → HasVersion p served i k client.loop.peerInfoList
  idle : ∀ l, client = .looping l → asked = none
  waiting : ∀ l attempt reply, client = .discovering l attempt reply →
    ∃ b, asked = some b ∧ ∀ sent, reply = some sent → ∃ k request handled, b ≤ k ∧
      Answered p served k request handled ∧ handled.sent = sent ∧
      content request.arrivals <+: sentToServer p i attempt

/-- The versions are the requests handled. -/
structure Tracks (initial : ι → List PeerInfo) (s : DiscoverySystem ι)
    (r : SnapshotReads.Readers ι) : Prop where
  ordered : SnapshotReads.Ordered r
  published : r.published = s.served.length
  table : serveRequests p.serverOrder p.bootstrap [] s.served = some s.peerInfoList
  clients : ∀ i, TracksClient p s.served i (initial i) (s.clients i) (r.seen i) (r.asked i)

variable {p}

theorem TracksClient.append {served : List PeerRequest} {i : ι} {initial : List PeerInfo}
    {client : DiscoveryClient} {seen asked : Option Nat}
    (h : TracksClient p served i initial client seen asked) (rest : List PeerRequest) :
    TracksClient p (served ++ rest) i initial client seen asked where
  unseen := h.unseen
  seen := fun k hk => (h.seen k hk).append rest
  idle := h.idle
  waiting := by
    intro l attempt reply hclient
    rcases h.waiting l attempt reply hclient with ⟨b, hb, hanswer⟩
    refine ⟨b, hb, ?_⟩
    intro sent hsent
    rcases hanswer sent hsent with ⟨k, request, handled, hle, hanswered, hrest⟩
    exact ⟨k, request, handled, hle, hanswered.append rest, hrest⟩

variable {initial : ι → List PeerInfo}

/-- Before anything happens there are no versions. -/
theorem tracks_start {s : DiscoverySystem ι} (h : s.Starts p initial) :
    Tracks p initial s SnapshotReads.start where
  ordered := SnapshotReads.ordered_start
  published := by
    rw [h.served]
    rfl
  table := by
    rw [h.served, h.peerInfoList]
    rfl
  clients := by
    intro i
    rcases h.clients i with ⟨test, hclient⟩
    -- A client has tested its loop once, or it has stopped.
    rcases discoverPeersTest_some hclient with ⟨hlist, hends⟩
    exact
      { unseen := fun _ => hlist
        seen := fun _ hk => absurd hk (by simp only [SnapshotReads.start, reduceCtorEq,
          not_false_eq_true])
        idle := fun _ _ => rfl
        waiting := fun l attempt reply hl => absurd hl (hends l attempt reply) }

/-- What the server has handled stays in front. -/
theorem serveRequest_served {s s' : DiscoverySystem ι} {request : PeerRequest}
    {clients : List UInt8 → ι → DiscoveryClient}
    (h : serveRequest p s request clients = some s') : s.served <+: s'.served := by
  unfold serveRequest at h
  by_cases hblocked : s.serverBlocked = true
  · rw [if_pos hblocked] at h
    exact absurd h (by simp only [reduceCtorEq, not_false_eq_true])
  · rw [if_neg hblocked, Option.map_eq_some_iff] at h
    rcases h with ⟨handled, _, rfl⟩
    exact List.prefix_append s.served [request]

variable [DecidableEq ι]

/-- If something happens to one client, only that client needs a look. -/
theorem tracksClient_update {served : List PeerRequest} {clients : ι → DiscoveryClient}
    {seen asked : ι → Option Nat}
    (h : ∀ j, TracksClient p served j (initial j) (clients j) (seen j) (asked j)) {i : ι}
    {client : DiscoveryClient} {seen' asked' : Option Nat}
    (hi : TracksClient p served i (initial i) client seen' asked') (j : ι) :
    TracksClient p served j (initial j) (Function.update clients i client j)
      (Function.update seen i seen' j) (Function.update asked i asked' j) := by
  by_cases hj : j = i
  · subst hj
    rw [Function.update_self, Function.update_self, Function.update_self]
    exact hi
  · rw [Function.update_of_ne hj, Function.update_of_ne hj, Function.update_of_ne hj]
    exact h j

/-- A request that the server handles is the next version. -/
theorem serveRequest_tracks {s s' : DiscoverySystem ι} {r : SnapshotReads.Readers ι}
    (h : Tracks p initial s r) (request : PeerRequest)
    (clients : List UInt8 → ι → DiscoveryClient)
    (hclients : ∀ handled, Answered p (s.served ++ [request]) s.served.length request handled →
      ∀ i, TracksClient p (s.served ++ [request]) i (initial i) (clients handled.sent i) (r.seen i)
        (r.asked i))
    (hstep : serveRequest p s request clients = some s') :
    ∃ a r', SnapshotReads.step r a = some r' ∧ Tracks p initial s' r' := by
  unfold serveRequest at hstep
  by_cases hblocked : s.serverBlocked = true
  · rw [if_pos hblocked] at hstep
    exact absurd hstep (by simp only [reduceCtorEq, not_false_eq_true])
  rw [if_neg hblocked, Option.map_eq_some_iff] at hstep
  rcases hstep with ⟨handled, hhandled, rfl⟩
  have hanswered : Answered p (s.served ++ [request]) s.served.length request handled :=
    { numbered := by
        rw [List.getElem?_append_right (Nat.le_refl _), Nat.sub_self]
        rfl
      answer := ⟨s.peerInfoList, by
        rw [List.take_append_of_le_length (Nat.le_refl _), List.take_length]
        exact h.table, hhandled⟩ }
  have htable := hanswered.table.2
  rw [List.take_of_length_le (by rw [List.length_append]; rfl)] at htable
  refine ⟨.publish, _, rfl, ?_⟩
  exact
    { ordered := (h.ordered.step .publish rfl).1
      published := by
        rw [List.length_append, ← h.published]
        rfl
      table := htable
      clients := hclients handled hanswered }

/-- Each step of the system is one of the readers. -/
theorem discoveryStep_tracks
    (hcompare : p.bootstrap.compareFunction = some (comparePeerInfo p.serverOrder))
    (s : DiscoverySystem ι) (e : DiscoveryEvent ι) (s' : DiscoverySystem ι)
    (r : SnapshotReads.Readers ι) (h : Tracks p initial s r)
    (hstep : discoveryStep p s e = some s') :
    ∃ a r', SnapshotReads.step r a = some r' ∧ Tracks p initial s' r' := by
  cases e with
  | connect i attempt =>
      have hi := h.clients i
      rcases hclient : s.clients i with l | _ | _ | _
      · simp only [discoveryStep, hclient, Option.some.injEq] at hstep
        subst hstep
        rw [hclient] at hi
        -- To connect is to ask: the version answered is no earlier than now.
        have hask : SnapshotReads.step r (.ask i) = some
            { r with asked := Function.update r.asked i (some r.published) } := by
          rw [SnapshotReads.step, hi.idle l rfl]
        refine ⟨.ask i, _, hask, (h.ordered.step _ hask).1, h.published, h.table, ?_⟩
        have hnow : TracksClient p s.served i (initial i) (.discovering l attempt none) (r.seen i)
            (some r.published) :=
          { unseen := hi.unseen
            seen := hi.seen
            idle := fun _ hl => absurd hl (by simp only [reduceCtorEq, not_false_eq_true])
            waiting := by
              intro l' attempt' reply hl
              rw [DiscoveryClient.discovering.injEq] at hl
              refine ⟨r.published, rfl, ?_⟩
              intro sent hsent
              rw [← hl.2.2] at hsent
              exact absurd hsent (by simp only [reduceCtorEq, not_false_eq_true]) }
        have hall := tracksClient_update h.clients hnow
        rw [Function.update_eq_self] at hall
        exact hall
      all_goals
        simp only [discoveryStep, hclient, reduceCtorEq] at hstep
  | serve i request =>
      have hi := h.clients i
      rcases hclient : s.clients i with _ | ⟨l, attempt, _ | _⟩ | _ | _
      case discovering.none =>
        simp only [discoveryStep, hclient] at hstep
        by_cases hcontent : content request.arrivals <+: sentToServer p i attempt
        · rw [if_pos hcontent] at hstep
          rw [hclient] at hi
          refine serveRequest_tracks h request _ ?_ hstep
          intro handled hanswered
          rcases hi.waiting l attempt none rfl with ⟨b, hb, _⟩
          have hi' := hi.append [request]
          -- The version that the client is sent is published with this step.
          have hnow : TracksClient p (s.served ++ [request]) i (initial i)
              (.discovering l attempt (some handled.sent)) (r.seen i) (r.asked i) :=
            { unseen := hi'.unseen
              seen := hi'.seen
              idle := fun _ hl => absurd hl (by simp only [reduceCtorEq, not_false_eq_true])
              waiting := by
                intro l' attempt' reply hl
                rw [DiscoveryClient.discovering.injEq] at hl
                refine ⟨b, hb, ?_⟩
                intro sent hsent
                rw [← hl.2.2, Option.some.injEq] at hsent
                rw [← hl.2.1]
                exact ⟨s.served.length, request, handled,
                  h.published ▸ h.ordered.asked_le i b hb, hanswered, hsent, hcontent⟩ }
          have hall := tracksClient_update (fun j => (h.clients j).append [request]) hnow
          rw [Function.update_eq_self, Function.update_eq_self] at hall
          exact hall
        · rw [if_neg hcontent] at hstep
          exact absurd hstep (by simp only [reduceCtorEq, not_false_eq_true])
      all_goals
        simp only [discoveryStep, hclient, reduceCtorEq] at hstep
  | serveOther request =>
      rw [discoveryStep] at hstep
      exact serveRequest_tracks h request (fun _ => s.clients)
        (fun _ _ j => (h.clients j).append [request]) hstep
  | finish i arrivals test =>
      have hi := h.clients i
      rcases hclient : s.clients i with _ | ⟨l, attempt, reply⟩ | _ | _
      case discovering =>
        simp only [discoveryStep, hclient] at hstep
        by_cases hcontent : content arrivals <+: reply.getD []
        swap
        · rw [if_neg hcontent] at hstep
          exact absurd hstep (by simp only [reduceCtorEq, not_false_eq_true])
        rw [if_pos hcontent, Option.map_eq_some_iff] at hstep
        rcases hstep with ⟨client, hround, rfl⟩
        rcases discoverPeersRound_some hround with ⟨discovered, hrun, hlist, hends⟩
        rw [hclient] at hi
        rcases hi.waiting l attempt reply rfl with ⟨b, hb, hanswer⟩
        rcases finish_received hcompare i l.peerInfoList { attempt with arrivals := arrivals } reply
          hcontent discovered hrun with hsame | ⟨sent, hreply, hversion⟩
        -- The attempt failed, and the list is the one before.
        · refine ⟨.giveUp i, _, rfl, (h.ordered.step (.giveUp i) rfl).1, h.published, h.table, ?_⟩
          have hnow : TracksClient p s.served i (initial i) client (r.seen i) none :=
            { unseen := fun hseen => (hlist.trans hsame).trans (hi.unseen hseen)
              seen := by
                intro k hk
                rw [hlist, hsame]
                exact hi.seen k hk
              idle := fun _ _ => rfl
              waiting := fun l' attempt' reply' hl => absurd hl (hends l' attempt' reply') }
          have hall := tracksClient_update h.clients hnow
          rw [Function.update_eq_self] at hall
          exact hall
        · rcases hanswer sent hreply with
            ⟨k, request, handled, hle, hanswered, hsent, htoServer⟩
          -- The version is the one that was sent, not the one published last.
          have hreceive : SnapshotReads.step r (.receive i k) = some
              { r with
                seen := Function.update r.seen i (some k)
                asked := Function.update r.asked i none } := by
            rw [SnapshotReads.step, hb]
            exact if_pos ⟨hle, h.published ▸ hanswered.lt⟩
          refine ⟨.receive i k, _, hreceive, (h.ordered.step _ hreceive).1, h.published, h.table,
            ?_⟩
          have hnow : TracksClient p s.served i (initial i) client (some k) none :=
            { unseen := fun hseen => absurd hseen (by simp only [reduceCtorEq, not_false_eq_true])
              seen := by
                intro k' hk'
                rw [Option.some.injEq] at hk'
                rw [← hk', hlist]
                exact hversion s.served k request handled hanswered hsent htoServer
              idle := fun _ _ => rfl
              waiting := fun l' attempt' reply' hl => absurd hl (hends l' attempt' reply') }
          exact tracksClient_update h.clients hnow
      all_goals
        simp only [discoveryStep, hclient, reduceCtorEq] at hstep

theorem discoveryStep_served (s : DiscoverySystem ι) (e : DiscoveryEvent ι)
    (s' : DiscoverySystem ι) (h : discoveryStep p s e = some s') : s.served <+: s'.served := by
  unfold discoveryStep at h
  split at h
  · split at h
    · rw [Option.some.injEq] at h
      rw [← h]
    · exact absurd h (by simp only [reduceCtorEq, not_false_eq_true])
  · split at h
    · split at h
      · exact serveRequest_served h
      · exact absurd h (by simp only [reduceCtorEq, not_false_eq_true])
    · exact absurd h (by simp only [reduceCtorEq, not_false_eq_true])
  · exact serveRequest_served h
  · split at h
    · split at h
      · rcases Option.map_eq_some_iff.mp h with ⟨client, _, rfl⟩
        exact List.prefix_refl _
      · exact absurd h (by simp only [reduceCtorEq, not_false_eq_true])
    · exact absurd h (by simp only [reduceCtorEq, not_false_eq_true])

/-- A run of the system is one of the readers. -/
theorem discoveryRun_tracks
    (hcompare : p.bootstrap.compareFunction = some (comparePeerInfo p.serverOrder))
    {s s' : DiscoverySystem ι} {r : SnapshotReads.Readers ι} (h : Tracks p initial s r)
    (events : List (DiscoveryEvent ι)) (hrun : Run.run (discoveryStep p) s events = some s') :
    ∃ r', SnapshotReads.NotBehind r.seen r'.seen ∧ Tracks p initial s' r' := by
  rcases Run.run_refines (Tracks p initial) (discoveryStep_tracks hcompare) s events s' r h hrun
    with ⟨acts, r', hacts, h'⟩
  exact ⟨r', SnapshotReads.notBehind_run h.ordered acts hacts, h'⟩

variable (p initial)

/-- Each client has the list it started with, or the table after a request of
    its own. -/
def KnowsVersions (s : DiscoverySystem ι) (seen : ι → Option Nat) : Prop :=
  ∀ i, (seen i = none → (s.clients i).loop.peerInfoList = initial i) ∧
    ∀ k, seen i = some k → HasVersion p s.served i k (s.clients i).loop.peerInfoList

/-- In any run of the bootstrap server and its clients, the table is the one
    after the requests handled. Each client has the list it started with, or the
    table after a request of its own, with its own address in it unless that
    expired between two readings of the clock. In any run from there on, no
    client gets an earlier table than the one it has. -/
theorem discoverySystem_law
    (hcompare : p.bootstrap.compareFunction = some (comparePeerInfo p.serverOrder))
    (start : DiscoverySystem ι) (hstart : start.Starts p initial)
    (events : List (DiscoveryEvent ι)) (s : DiscoverySystem ι)
    (hrun : Run.run (discoveryStep p) start events = some s) :
    serveRequests p.serverOrder p.bootstrap [] s.served = some s.peerInfoList ∧
    ∃ seen, KnowsVersions p initial s seen ∧
      ∀ (events' : List (DiscoveryEvent ι)) (s' : DiscoverySystem ι),
        Run.run (discoveryStep p) s events' = some s' →
        s.served <+: s'.served ∧
        ∃ seen', KnowsVersions p initial s' seen' ∧ SnapshotReads.NotBehind seen seen' := by
  rcases discoveryRun_tracks hcompare (tracks_start hstart) events hrun with ⟨r, _, h⟩
  refine ⟨h.table, r.seen, fun i => ⟨(h.clients i).unseen, (h.clients i).seen⟩, ?_⟩
  intro events' s' hrun'
  rcases discoveryRun_tracks hcompare h events' hrun' with ⟨r', hle, h'⟩
  refine ⟨?_, r'.seen, fun i => ⟨(h'.clients i).unseen, (h'.clients i).seen⟩, hle⟩
  exact Run.run_invariant (fun t => s.served <+: t.served)
    (fun t e t' ht hstep => ht.trans (discoveryStep_served t e t' hstep)) s events' s'
    (List.prefix_refl _) hrun'

end System

/-- Clients at the ports 1 and 2, and a server that forgets after a second. -/
def sampleParties : DiscoveryParties Bool where
  serverOrder := .little
  bootstrap := ⟨1000000, false, some (comparePeerInfo .little)⟩
  clientOrder := fun i => if i then .big else .little
  args := fun i => ⟨sampleAddr (if i then 2 else 1), false⟩

def sampleClients : DiscoverySystem Bool := ⟨[], false, [], fun _ => .looping ⟨[], .ok (), []⟩⟩

theorem sampleClients_starts : sampleClients.Starts sampleParties fun _ => [] where
  peerInfoList := rfl
  serverBlocked := rfl
  served := rfl
  clients := fun i => ⟨⟨false, .generous⟩, by cases i <;> rfl⟩

/-- The client at port 2 asks last and is answered first, but is the last to
    look at what it got. -/
def sampleDiscovery : List (DiscoveryEvent Bool) :=
  [.connect false { sampleAttempt with arrivals := [] },
    .connect true { sampleAttempt with arrivals := [] },
    .serve true (samplePeerRequest 2 3),
    .serve false (samplePeerRequest 1 4),
    .finish false [.bytes ⟨peerListFrame .little [⟨sampleAddr 1, 4⟩, ⟨sampleAddr 2, 3⟩],
      by decide⟩] ⟨false, .generous⟩,
    .finish true [.bytes ⟨peerListFrame .little [⟨sampleAddr 2, 3⟩], by decide⟩]
      ⟨false, .generous⟩]

/-- Later that client registers once more. -/
def sampleRediscovery : List (DiscoveryEvent Bool) :=
  [.connect true { sampleAttempt with arrivals := [] },
    .serve true (samplePeerRequest 2 5),
    .finish true [.bytes ⟨peerListFrame .little [⟨sampleAddr 1, 4⟩, ⟨sampleAddr 2, 5⟩],
      by decide⟩] ⟨true, .generous⟩]

theorem discoverySystem_law_sample :
    ∃ s s' seen seen',
      Run.run (discoveryStep sampleParties) sampleClients sampleDiscovery = some s ∧
      Run.run (discoveryStep sampleParties) s sampleRediscovery = some s' ∧
      (s'.clients true).loop.peerInfoList = [⟨sampleAddr 1, 4⟩, ⟨sampleAddr 2, 5⟩] ∧
      KnowsVersions sampleParties (fun _ => []) s seen ∧
      KnowsVersions sampleParties (fun _ => []) s' seen' ∧ SnapshotReads.NotBehind seen seen' := by
  have hrun : ∃ s, Run.run (discoveryStep sampleParties) sampleClients sampleDiscovery = some s ∧
      ∃ s', Run.run (discoveryStep sampleParties) s sampleRediscovery = some s' ∧
        (s'.clients true).loop.peerInfoList = [⟨sampleAddr 1, 4⟩, ⟨sampleAddr 2, 5⟩] :=
    ⟨_, rfl, _, rfl, rfl⟩
  rcases hrun with ⟨s, hrun, s', hrun', hlist⟩
  rcases discoverySystem_law sampleParties (fun _ => []) rfl sampleClients sampleClients_starts
    sampleDiscovery s hrun with ⟨_, seen, hseen, hlater⟩
  rcases hlater sampleRediscovery s' hrun' with ⟨_, seen', hseen', hle⟩
  exact ⟨s, s', seen, seen', hrun, hrun', hlist, hseen, hseen', hle⟩

end LeoCoin
