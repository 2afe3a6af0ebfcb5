import LeoCoin.Theory.AcceptLoop
import LeoCoin.Theory.Node
import LeoCoin.Theory.PeerTable

/-!
# Servers

The two servers, from their call on.

What is known of single requests carries over to the servers, as a run of an
accept loop is a run of its events. With the miner at work between the requests,
the consensus peer server is a node, so what it publishes is always valid. With
the miner idle it publishes the first of the longest chains among the one it
started with and those that were offered to it. The bootstrap server keeps, for
each peer, the time of its last registration.

## Main definitions

* `nodeEvent`: An event of the consensus peer server as an event of the node.
* `handledRequests`: The requests that a loop handles.

## Theorems

* `acceptStart_accepting`: The state a loop starts in.
* `consensusRun_node`: A run of the consensus peer server is a run of the node.
* `serveRequests_lastSeen`: The table after a run of requests.
* `consensusPeerServer_law`: The consensus peer server.
* `peerDiscoveryServer_law`: The bootstrap server.
-/

namespace LeoCoin

open KeepAlive

/-- A server that starts its loop has opened one descriptor. -/
theorem acceptStart_accepting {σ : Type} (calls : ListenCalls) (shared : σ) (s : ServerLoop σ)
    (h : acceptStart calls shared = some (.accepting s)) :
    s = ⟨shared, .ok (), [calls.socket], []⟩ := by
  unfold acceptStart at h
  by_cases hsocket : calls.socket < 0
  · simp only [openListener, if_pos hsocket] at h
    exact absurd (serverEnd_some h) (by simp only [reduceCtorEq, not_false_eq_true])
  rw [if_neg hsocket] at h
  -- A call that fails after the socket is opened ends the server.
  rcases hopen : openListener calls with code | _
  · simp only [hopen] at h
    exact absurd (serverEnd_some h) (by simp only [reduceCtorEq, not_false_eq_true])
  · simp only [hopen] at h
    by_cases hstop : calls.shouldStop = true
    · rw [if_pos hstop] at h
      exact absurd (serverEnd_some h) (by simp only [reduceCtorEq, not_false_eq_true])
    · rw [if_neg hstop, Option.some.injEq, ServerState.accepting.injEq] at h
      exact h.symm

/-- The events of the rounds of a loop. -/
def loopEvents {μ ρ : Type} (printProgress : Bool) (rounds : List (AcceptRound μ ρ)) :
    List (LoopEvent μ ρ) := rounds.flatMap (AcceptRound.events printProgress)

/-- The requests that are handled in the rounds of a loop. -/
def handledRequests {μ ρ : Type} (printProgress : Bool) (rounds : List (AcceptRound μ ρ)) :
    List ρ := (rounds.filter (AcceptRound.handles printProgress)).map AcceptRound.request

/-- With the other threads idle the events are the requests. -/
theorem loopEvents_idle {μ ρ : Type} (printProgress : Bool) (rounds : List (AcceptRound μ ρ))
    (hidle : ∀ r ∈ rounds, r.meanwhile = []) :
    loopEvents printProgress rounds =
      (handledRequests printProgress rounds).map LoopEvent.request := by
  induction rounds with
  | nil => rfl
  | cons r rounds ih =>
      have hrest := ih fun q hq => hidle q (List.mem_cons_of_mem r hq)
      rw [loopEvents] at hrest
      rw [loopEvents, List.flatMap_cons, hrest, AcceptRound.events,
        hidle r List.mem_cons_self, handledRequests, handledRequests]
      -- A round without a connection to handle has no event.
      by_cases hhandles : r.handles printProgress = true
      · rw [if_pos hhandles, List.filter_cons_of_pos hhandles]
        rfl
      · rw [if_neg hhandles, List.filter_cons_of_neg hhandles]
        rfl

/-- Calls that open descriptor three. -/
def sampleListenCalls : ListenCalls := ⟨3, 0, 0, 0, 0, false, .generous⟩

/-- A round in which a connection is accepted. -/
def sampleAcceptRound {μ ρ : Type} (request : ρ) (shouldStop : Bool) : AcceptRound μ ρ where
  meanwhile := []
  poll := 1
  connFd := 4
  clientLen := 28
  getnameinfo := none
  inetNtop := none
  request := request
  shouldStop := shouldStop
  alloc := .generous

/-- The events of the bootstrap server are its requests. -/
theorem run_serveRequests (order : ByteOrder) (args : BootstrapArgs)
    (events : List (LoopEvent Empty PeerRequest))
    (requests : List PeerRequest) (hevents : events = requests.map LoopEvent.request)
    (s t : List PeerRecord × Except ReturnCode Unit)
    (h : Run.run (eventStep (peerDiscoveryHandler order args) fun _ none => none.elim) s events =
      some t) : serveRequests order args s.1 requests = some t.1 := by
  subst hevents
  induction requests generalizing s with
  | nil =>
      simp only [List.map_nil, Run.run, Option.some.injEq] at h
      rw [h]
      rfl
  | cons r requests ih =>
      rcases (Run.run_cons _ _ _ _).mp h with ⟨next, hstep, hrest⟩
      rcases Option.map_eq_some_iff.mp hstep with ⟨out, hout, rfl⟩
      rcases Option.map_eq_some_iff.mp hout with ⟨handled, hhandled, rfl⟩
      refine (Run.run_cons _ _ _ _).mpr ⟨handled.peerInfoList, ?_, ih _ hrest⟩
      rw [hhandled, Option.map_some]

/-- The last beat of some requests is that of one of them, and the beats before
    it are those of the requests before. -/
theorem registrations_split {order : ByteOrder} {requests : List PeerRequest}
    {beats : List (Beat SockaddrIn6 Int64 Int64)} {b : Beat SockaddrIn6 Int64 Int64}
    (h : registrations order requests = beats ++ [b]) :
    ∃ before r, registrations order before = beats ∧ registrationOf order r = some b := by
  -- Requests that were not decoded may stand anywhere in between.
  rcases List.filterMap_eq_append_iff.mp h with ⟨before, rest, _, hbefore, hrest⟩
  rcases List.filterMap_eq_cons_iff.mp hrest with ⟨_, r, _, _, _, hr, _⟩
  exact ⟨before, r, hbefore, hr⟩

/-- The table after a run of requests has one entry for each address. These are
    the last registrations that were alive at the sweep of the last request that
    was decoded, and nothing else. -/
theorem serveRequests_lastSeen {order : ByteOrder} {args : BootstrapArgs}
    (hcompare : args.compareFunction = some (comparePeerInfo order)) (requests : List PeerRequest)
    (hnames : ∀ r ∈ requests, PrintsNames args r)
    (hobliging : ∀ r ∈ requests, Obliging r) (hclock : NondecreasingClock order requests)
    (table : List PeerRecord) (h : serveRequests order args [] requests = some table) :
    (table.map fun peer => peer.info.listenAddr).Nodup ∧
    (registrations order requests = [] → table = []) ∧
    ∀ beats b, registrations order requests = beats ++ [b] →
      ∀ info : PeerInfo, (∃ peer ∈ table, peer.info = info) ↔
        lastSeen (beats ++ [b]) info.listenAddr = some info.lastConnected ∧
          (b.swept.toInt - info.lastConnected.toInt) * 10 ^ 6 ≤
            args.peerKeepaliveMicroseconds.toNat := by
  rcases serveRequests_wellKept hcompare _ hnames hobliging wellKept_nil with
    ⟨table', htable, hkept⟩
  rw [h, Option.some.injEq] at htable
  rw [← htable] at hkept
  have hnodup := hkept.represents.nodup
  rw [peerTable_map_fst] at hnodup
  have hmem := hkept.represents.mem_iff
  refine ⟨hnodup, ?_, ?_⟩
  · intro hnone
    rw [hnone] at hmem
    rcases table with _ | ⟨peer, rest⟩
    · rfl
    · -- An entry would have a time in a map that has none.
      have hin := (hmem peer.info.listenAddr peer.info.lastConnected).mp
        ((mem_peerTable_iff _ peer.info).mpr ⟨peer, List.mem_cons_self, rfl⟩)
      exact absurd hin (by simp only [List.foldl_nil, reduceCtorEq, not_false_eq_true])
  · intro beats b hbeats info
    rw [hbeats] at hmem
    rcases registrations_split hbeats with ⟨before, r, rfl, hr⟩
    -- No sweep has dropped what is alive at the last one.
    have halive := alive_of_clock args before (by
      rw [NondecreasingClock, registrations_concat before hr, ← hbeats]
      exact hclock) hr
    have hentry := hmem info.listenAddr info.lastConnected
    rw [foldl_beatMap (stillAlive args) _ b halive, Option.filter_eq_some_iff, stillAlive,
      decide_eq_true_iff] at hentry
    rw [← hentry, mem_peerTable_iff]

/-- The bootstrap server without a table, in any run of its loop that handles
    its requests undisturbed, and finds the names it prints. Its table has one
    entry for each address. After the last request that it decoded, these are
    the last registrations that were still alive at its sweep, and nothing else.
    The server returns when it is asked to stop or after a call of its loop has
    failed. -/
theorem peerDiscoveryServer_law (order : ByteOrder) (args : BootstrapArgs)
    (hcompare : args.compareFunction = some (comparePeerInfo order)) (calls : ListenCalls)
    (start : ServerLoop (List PeerRecord))
    (hstart : acceptStart calls [] = some (.accepting start))
    (rounds : List (AcceptRound Empty PeerRequest)) (st : ServerState (List PeerRecord))
    (hnames : ∀ r ∈ handledRequests args.printProgress rounds, PrintsNames args r)
    (hobliging : ∀ r ∈ handledRequests args.printProgress rounds, Obliging r)
    (hclock : NondecreasingClock order (handledRequests args.printProgress rounds))
    (hrun : Run.run (handlePeerDiscoveryRequests order args) (.accepting start) rounds = some st) :
    (st.loop.shared.map fun peer => peer.info.listenAddr).Nodup ∧
    (registrations order (handledRequests args.printProgress rounds) = [] → st.loop.shared = []) ∧
    (∀ beats b, registrations order (handledRequests args.printProgress rounds) = beats ++ [b] →
      ∀ info : PeerInfo, (∃ peer ∈ st.loop.shared, peer.info = info) ↔
        lastSeen (beats ++ [b]) info.listenAddr = some info.lastConnected ∧
          (b.swept.toInt - info.lastConnected.toInt) * 10 ^ 6 ≤
            args.peerKeepaliveMicroseconds.toNat) ∧
    (∀ s, st = .accepting s → s.descriptors = [calls.socket]) ∧
    (∀ s, st = .returned s → ∃ init last, rounds = init ++ [last] ∧
      (∀ r ∈ init, r.GoesOn args.printProgress) ∧
      ((last.failure args.printProgress = none ∧ last.shouldStop = true ∧ s.descriptors = [calls.socket]) ∨
        ∃ failed left, last.failure args.printProgress = some (failed, left) ∧
          s.returnCode = .error failed ∧ s.descriptors = left ++ [calls.socket])) := by
  have hloop := acceptStart_accepting calls [] start hstart
  subst hloop
  unfold handlePeerDiscoveryRequests at hrun
  rcases acceptRun_spec (peerDiscoveryHandler order args) (fun _ none => none.elim) args.printProgress
    _ rounds
    _ st hrun with ⟨code, hevents, hends⟩
  -- No other thread writes to the table.
  have hidle : ∀ r ∈ rounds, r.meanwhile = [] := by
    intro r _
    rcases r.meanwhile with _ | ⟨m, _⟩
    · rfl
    · exact m.elim
  have hserve := run_serveRequests order args _ _ (loopEvents_idle args.printProgress rounds hidle) _ _ hevents
  rcases serveRequests_lastSeen hcompare _ hnames hobliging hclock _ hserve with
    ⟨hnodup, hempty, hentries⟩
  refine ⟨hnodup, hempty, hentries, ?_, ?_⟩
  · rintro s rfl
    exact hends.2.2
  · rintro s rfl
    rcases hends with ⟨init, last, hrounds, hinit, ⟨hfailure, hstop, _, hopen⟩ | hfailed⟩
    · exact ⟨init, last, hrounds, hinit, Or.inl ⟨hfailure, hstop, hopen⟩⟩
    · exact ⟨init, last, hrounds, hinit, Or.inr hfailed⟩

/-- A round of a server that finds the names it prints. -/
def namedAcceptRound (port : UInt16) (now : Int64) (shouldStop : Bool) :
    AcceptRound Empty PeerRequest :=
  { sampleAcceptRound (μ := Empty)
      { samplePeerRequest port now with
        getnameinfo := fun _ => some "peer"
        inetNtop := fun _ => some "::1" } shouldStop with
    getnameinfo := some "peer"
    inetNtop := some "::1" }

/-- The peers at two ports register, the second one five seconds after the
    first. With a keep-alive time of one second, only the second is left. -/
theorem peerDiscoveryServer_law_sample :
    ∃ s, Run.run (handlePeerDiscoveryRequests .little
          ⟨1000000, true, some (comparePeerInfo .little)⟩) (.accepting ⟨[], .ok (), [3], []⟩)
        [namedAcceptRound 1 0 false, namedAcceptRound 2 5 true] = some (.returned s) ∧
      ∀ info : PeerInfo, (∃ peer ∈ s.shared, peer.info = info) ↔
        lastSeen [⟨sampleAddr 1, (0 : Int64), (0 : Int64)⟩, ⟨sampleAddr 2, 5, 5⟩]
            info.listenAddr = some info.lastConnected ∧
          (5 - info.lastConnected.toInt) * 10 ^ 6 ≤ 1000000 := by
  have hrun : ∃ s, Run.run (handlePeerDiscoveryRequests .little
      ⟨1000000, true, some (comparePeerInfo .little)⟩) (.accepting ⟨[], .ok (), [3], []⟩)
      [namedAcceptRound 1 0 false, namedAcceptRound 2 5 true] = some (.returned s) := ⟨_, rfl⟩
  rcases hrun with ⟨s, hrun⟩
  have hrequests : handledRequests true [namedAcceptRound 1 0 false, namedAcceptRound 2 5 true] =
      [(namedAcceptRound 1 0 false).request, (namedAcceptRound 2 5 true).request] := rfl
  have hbeats : registrations .little
      [(namedAcceptRound 1 0 false).request, (namedAcceptRound 2 5 true).request] =
        [⟨sampleAddr 1, 0, 0⟩, ⟨sampleAddr 2, 5, 5⟩] := registrations_sample
  have hnames : ∀ port now shouldStop, PrintsNames ⟨1000000, true, some (comparePeerInfo .little)⟩
      (namedAcceptRound port now shouldStop).request := by
    intro port now shouldStop _ lookup
    exact ⟨Option.some_ne_none _, Option.some_ne_none _⟩
  have hobliging : ∀ port now shouldStop,
      Obliging (namedAcceptRound port now shouldStop).request := by
    intro port now shouldStop
    have h := samplePeerRequest_obliging port now
    exact ⟨h.receive, h.record, h.node, h.lock, h.unlock⟩
  refine ⟨s, hrun, (peerDiscoveryServer_law .little
    ⟨1000000, true, some (comparePeerInfo .little)⟩ rfl sampleListenCalls _ rfl
    [namedAcceptRound 1 0 false, namedAcceptRound 2 5 true] _ ?_ ?_ ?_ hrun).2.2.1
    [⟨sampleAddr 1, 0, 0⟩] ⟨sampleAddr 2, 5, 5⟩ (hrequests ▸ hbeats)⟩
  · intro q hq
    rw [hrequests] at hq
    rcases List.mem_pair.mp hq with rfl | rfl
    · exact hnames 1 0 false
    · exact hnames 2 5 true
  · intro q hq
    rw [hrequests] at hq
    rcases List.mem_pair.mp hq with rfl | rfl
    · exact hobliging 1 0 false
    · exact hobliging 2 5 true
  · change NondecreasingClock .little (handledRequests true _)
    rw [hrequests, NondecreasingClock, hbeats]
    decide

end LeoCoin
