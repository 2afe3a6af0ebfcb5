import LeoCoin.Library.KeepAlive
import LeoCoin.Library.Run
import LeoCoin.Theory.PeerReply
import LeoCoin.Theory.Registration

/-!
# Peer Table

The table of the bootstrap server is a keep-alive map.

A request that is decoded is a beat: its address is heard of when the peer
registers, and the table is swept afterwards. The table starts out empty and
represents the map that the beats build up, by a step lemma for one request and
an induction over the requests. The closed form of the map then says what is in
the table: the last registration of every address that is not too old.

The records have names besides. Refreshing an entry goes by the name of the
record that was found, so the names have to stay distinct for one entry at a
time to be refreshed.

## Main definitions

* `peerTable`: The addresses of the entries with their times.
* `stillAlive`: A time is recent enough at a sweep.
* `Obliging`: Allocations and mutex calls succeed.
* `registrationOf`, `registrations`: The beats of requests.
* `WellKept`: The names are distinct, and the table represents a map.
* `PrintsNames`: What is printed can be looked up.
* `serveRequests`: The handler called for one request after the other.

## Theorems

* `registerPeer_touches`, `sweepPeers_ok`: The two parts of a beat.
* `handle_decoded`: What one request does.
* `serveRequests_wellKept`: What a run of requests does.
* `peerTable_keepAlive`: The table after any request of a run.
-/

namespace LeoCoin

open KeepAlive

/-- The addresses of the entries with the times they hold. -/
def peerTable (peerInfoList : List PeerRecord) : List (SockaddrIn6 × Int64) :=
  peerInfoList.map fun peer => (peer.info.listenAddr, peer.info.lastConnected)

/-- The time since a registration does not exceed the keep-alive time. -/
def stillAlive (args : BootstrapArgs) (swept registered : Int64) : Bool :=
  (swept.toInt - registered.toInt) * 10 ^ 6 ≤ args.peerKeepaliveMicroseconds.toNat

/-- The allocations and the mutex calls of a request succeed. -/
structure Obliging (r : PeerRequest) : Prop where
  receive : ∀ n rest, Announces .bootstrap r.arrivals n rest →
    (r.memory .receive).grants 1 (16 + n).toNat = true
  record : (r.memory .record).grants 0 sizeofPeerInfo = true
  node : (r.memory .node).grants 0 sizeofNode = true
  lock : r.lock = 0
  unlock : r.unlock = 0

/-- The beat of a request, if it is decoded. -/
def registrationOf (order : ByteOrder) (r : PeerRequest) :
    Option (Beat SockaddrIn6 Int64 Int64) :=
  match receiveRegisterPeer order r with
  | some (.ok command) => some ⟨command.toSockaddrIn6, r.registered, r.swept⟩
  | _ => none

/-- The beats of the requests that are decoded. -/
def registrations (order : ByteOrder) (requests : List PeerRequest) :
    List (Beat SockaddrIn6 Int64 Int64) :=
  requests.filterMap (registrationOf order)

/-- The clock, as the requests that are decoded read it, does not go back. -/
def NondecreasingClock (order : ByteOrder) (requests : List PeerRequest) : Prop :=
  ((registrations order requests).flatMap fun b => [b.seen.toInt, b.swept.toInt]).Pairwise
    (· ≤ ·)

/-- The records have distinct names, and the table represents a map. -/
structure WellKept (peerInfoList : List PeerRecord) (m : SockaddrIn6 → Option Int64) : Prop where
  names : (peerInfoList.map PeerRecord.name).Nodup
  represents : Represents (peerTable peerInfoList) m

/-- Call the handler for one request after the other, whatever it returns. -/
def serveRequests (order : ByteOrder) (args : BootstrapArgs) :
    List PeerRecord → List PeerRequest → Option (List PeerRecord) :=
  Run.run fun peerInfoList r =>
    (handleOnePeerDiscoveryRequest order args peerInfoList r).map HandledPeer.peerInfoList

theorem wellKept_nil : WellKept [] fun _ => none where
  names := List.nodup_nil
  represents := represents_nil

theorem peerTable_map_fst (peerInfoList : List PeerRecord) :
    (peerTable peerInfoList).map Prod.fst = peerInfoList.map fun peer => peer.info.listenAddr := by
  rw [peerTable, List.map_map]
  rfl

/-- A peer is in the list exactly if its address is in the table with its time. -/
theorem mem_peerTable_iff (peerInfoList : List PeerRecord) (info : PeerInfo) :
    (info.listenAddr, info.lastConnected) ∈ peerTable peerInfoList ↔
      ∃ peer ∈ peerInfoList, peer.info = info := by
  rw [peerTable, List.mem_map]
  refine exists_congr ?_
  intro peer
  refine and_congr_right ?_
  intro _
  rw [Prod.mk.injEq]
  constructor
  · rintro ⟨haddr, htime⟩
    rcases peer with ⟨name, ⟨addr, time⟩⟩
    simp only at haddr htime
    rw [haddr, htime]
  · rintro rfl
    exact ⟨rfl, rfl⟩

section Beats

variable {order : ByteOrder} {r : PeerRequest} {b : Beat SockaddrIn6 Int64 Int64}

theorem swept_of_registrationOf (hb : registrationOf order r = some b) : b.swept = r.swept := by
  unfold registrationOf at hb
  split at hb
  · rw [Option.some.injEq] at hb
    rw [← hb]
  · exact absurd hb (by simp only [reduceCtorEq, not_false_eq_true])

/-- The beats of a run are those before the last request and the one of it. -/
theorem registrations_concat (requests : List PeerRequest) (hb : registrationOf order r = some b) :
    registrations order (requests ++ [r]) = registrations order requests ++ [b] := by
  rw [registrations, List.filterMap_append, List.filterMap_cons_some hb, List.filterMap_nil,
    registrations]

/-- What is still alive at the last sweep was so at the sweeps before. -/
theorem alive_of_clock (args : BootstrapArgs) (requests : List PeerRequest)
    (hclock : NondecreasingClock order (requests ++ [r])) (hb : registrationOf order r = some b) :
    ∀ b' ∈ registrations order requests, ∀ t,
      stillAlive args b.swept t = true → stillAlive args b'.swept t = true := by
  intro b' hb' t ht
  rw [NondecreasingClock, registrations_concat requests hb, List.flatMap_append,
    List.pairwise_append] at hclock
  have hle : b'.swept.toInt ≤ b.swept.toInt := hclock.2.2 _
    (List.mem_flatMap.mpr ⟨b', hb', List.mem_cons_of_mem _ List.mem_cons_self⟩) _
    (List.mem_flatMap.mpr ⟨b, List.mem_cons_self, List.mem_cons_of_mem _ List.mem_cons_self⟩)
  have halive := of_decide_eq_true ht
  exact decide_eq_true (by omega)

end Beats

/-- Looking a peer up by its memory is looking up its address. -/
theorem findsPeer_iff (args : BootstrapArgs) (order : ByteOrder) (peerInfoList : List PeerRecord)
    (info : PeerInfo) (found : Option PeerRecord)
    (hcompare : args.compareFunction = some (comparePeerInfo order)) :
    FindsPeer args peerInfoList info found ↔
      (peerInfoList.find? fun peer => info.listenAddr = peer.info.listenAddr) = found := by
  have hsame : (fun peer : PeerRecord => comparePeerInfo order info peer.info == 0) =
      fun peer => decide (info.listenAddr = peer.info.listenAddr) := by
    funext peer
    rw [Bool.eq_iff_iff, beq_iff_eq, decide_eq_true_iff, comparePeerInfo_eq_zero_iff]
  unfold FindsPeer
  rw [hcompare]
  simp only [Option.some.injEq, exists_eq_left', hsame]

/-- An entry that is found is in the table, and has the address of the peer. -/
theorem FindsPeer.found {args : BootstrapArgs} {order : ByteOrder}
    {peerInfoList : List PeerRecord} {listenAddr : SockaddrIn6} {t : Int64} {found : PeerRecord}
    (h : FindsPeer args peerInfoList ⟨listenAddr, t⟩ (some found))
    (hcompare : args.compareFunction = some (comparePeerInfo order)) :
    found ∈ peerInfoList ∧ listenAddr = found.info.listenAddr := by
  have hfind := (findsPeer_iff args order peerInfoList _ (some found) hcompare).mp h
  have hmatch := List.find?_some hfind
  exact ⟨List.mem_of_find?_eq_some hfind, of_decide_eq_true hmatch⟩

/-- Refreshing the record that was found replaces the time of its address. -/
theorem peerTable_refreshPeer (peerInfoList : List PeerRecord) (m : SockaddrIn6 → Option Int64)
    (h : WellKept peerInfoList m) (found : PeerRecord) (hfound : found ∈ peerInfoList)
    (t : Int64) :
    peerTable (refreshPeer peerInfoList found t) =
      touch (peerTable peerInfoList) found.info.listenAddr t := by
  have haddrs := h.represents.nodup
  rw [peerTable_map_fst] at haddrs
  have hmem : found.info.listenAddr ∈ (peerTable peerInfoList).map Prod.fst := by
    rw [peerTable_map_fst]
    exact List.mem_map_of_mem hfound
  rw [touch, if_pos hmem, peerTable, peerTable, refreshPeer, List.map_map, List.map_map]
  refine List.map_congr_left ?_
  intro peer hpeer
  simp only [Function.comp_apply]
  -- An entry has the name of the record exactly if it has its address.
  by_cases hname : peer.name = found.name
  · have hsame := List.inj_on_of_nodup_map h.names hpeer hfound hname
    rw [if_pos hname, hsame, if_pos rfl]
  · have hother : peer.info.listenAddr ≠ found.info.listenAddr := fun heq =>
      hname (congrArg _ (List.inj_on_of_nodup_map haddrs hpeer hfound heq))
    rw [if_neg hname, if_neg hother]

theorem map_name_refreshPeer (peerInfoList : List PeerRecord) (found : PeerRecord) (t : Int64) :
    (refreshPeer peerInfoList found t).map PeerRecord.name =
      peerInfoList.map PeerRecord.name := by
  rw [refreshPeer, List.map_map]
  refine List.map_congr_left ?_
  intro peer _
  rw [Function.comp_apply]
  by_cases hname : peer.name = found.name
  · rw [if_pos hname]
  · rw [if_neg hname]

/-- A sweep that succeeds keeps what has not expired. -/
theorem sweepPeers_ok (order : ByteOrder) (args : BootstrapArgs) (r : PeerRequest)
    (peerInfoList : List PeerRecord)
    (hok : (sweepPeers order args r peerInfoList).ending = .ok ()) :
    (sweepPeers order args r peerInfoList).peerInfoList =
      peerInfoList.filter fun peer => !peerExpired args r.swept peer.info := by
  induction peerInfoList with
  | nil => rfl
  | cons peer rest ih =>
      rw [List.filter_cons]
      rw [sweepPeers] at hok ⊢
      by_cases hexpired : peerExpired args r.swept peer.info = true
      · rw [if_pos hexpired] at hok ⊢
        rw [hexpired]
        by_cases hprint : ¬ args.printProgress = true
        · rw [if_pos hprint] at hok ⊢
          exact ih hok
        · rw [if_neg hprint] at hok ⊢
          rcases hline : peerLine order r (.removal peer.name) "removed" peer.info with code | line
          · simp only [hline, reduceCtorEq] at hok
          · simp only [hline] at hok ⊢
            exact ih hok
      · rw [if_neg hexpired] at hok ⊢
        rw [Bool.eq_false_of_not_eq_true hexpired]
        exact congrArg (peer :: ·) (ih hok)

/-- What has not expired is still alive. -/
theorem not_peerExpired (args : BootstrapArgs) (swept : Int64) (peer : PeerInfo) :
    (!peerExpired args swept peer) = stillAlive args swept peer.lastConnected := by
  simp only [stillAlive, peerExpired, gt_iff_lt, ← not_lt, decide_not]

section Serving

variable {order : ByteOrder} {args : BootstrapArgs} {m : SockaddrIn6 → Option Int64}
  {peerInfoList : List PeerRecord} {r : PeerRequest}

/-- If progress is printed, the names of the peers are found. -/
def PrintsNames (args : BootstrapArgs) (r : PeerRequest) : Prop :=
  args.printProgress = true →
    ∀ lookup, r.getnameinfo lookup ≠ none ∧ r.inetNtop lookup ≠ none

theorem printsNames_of_quiet (hquiet : args.printProgress = false) (r : PeerRequest) :
    PrintsNames args r :=
  fun hprint => absurd (hquiet.symm.trans hprint) Bool.false_ne_true

/-- With the names, there is a line to print. -/
theorem PrintsNames.peerLine (h : PrintsNames args r) (hprint : args.printProgress = true)
    (order : ByteOrder) (lookup : PeerLookup) (what : String) (peer : PeerInfo) :
    ∃ line, LeoCoin.peerLine order r lookup what peer = .ok line := by
  rcases hline : LeoCoin.peerLine order r lookup what peer with code | line
  · rcases (peerLine_error_iff order r lookup what peer code).mp hline with ⟨_, hnone | hnone⟩
    · exact absurd hnone (h hprint lookup).1
    · exact absurd hnone (h hprint lookup).2
  · exact ⟨line, rfl⟩

/-- Adding or refreshing a peer touches its address in the table. -/
theorem registerPeer_touches (hnames : PrintsNames args r)
    (hcompare : args.compareFunction = some (comparePeerInfo order)) (hr : Obliging r)
    (h : WellKept peerInfoList m) (listenAddr : SockaddrIn6) :
    ∃ u, registerPeer order args peerInfoList r listenAddr = some u ∧ u.ending = .ok () ∧
      (u.peerInfoList.map PeerRecord.name).Nodup ∧
      peerTable u.peerInfoList = touch (peerTable peerInfoList) listenAddr r.registered := by
  rcases registerPeer_registers order args peerInfoList r listenAddr hr.record with
    ⟨u, hu, hways⟩
  refine ⟨u, hu, ?_⟩
  cases hways with
  | locked hlock => exact absurd hr.lock hlock
  | incomparable hnone =>
      rw [hcompare] at hnone
      exact absurd hnone (by simp only [reduceCtorEq, not_false_eq_true])
  | unlinked hnode => exact absurd hr.node hnode
  | added lines hnew =>
      have hnone := List.find?_eq_none.mp ((findsPeer_iff args order _ _ _ hcompare).mp hnew)
      refine ⟨rfl, ?_, ?_⟩
      · rw [List.map_cons, List.nodup_cons]
        refine ⟨?_, h.names⟩
        intro hmem
        rcases List.mem_map.mp hmem with ⟨peer, hpeer, hname⟩
        exact absurd hname (Nat.ne_of_lt (lt_freshName peerInfoList peer hpeer))
      · have hfresh : listenAddr ∉ (peerTable peerInfoList).map Prod.fst := by
          rw [peerTable_map_fst]
          intro hmem
          rcases List.mem_map.mp hmem with ⟨peer, hpeer, haddr⟩
          exact hnone peer hpeer (decide_eq_true haddr.symm)
        rw [touch, if_neg hfresh]
        rfl
  | addedAndReleased _ _ _ hprint hlookup =>
      rcases hlookup with hnone | hnone
      · exact absurd hnone (hnames hprint .registration).1
      · exact absurd hnone (hnames hprint .registration).2
  | refreshed ending lines found hfound hending =>
      rcases hfound.found hcompare with ⟨hmem, haddr⟩
      have hok : ending = .ok () := by
        rcases hprint : args.printProgress with _ | _
        · exact hending hprint
        -- The line is printed, and so the refresh succeeds.
        · rcases hnames.peerLine hprint order .registration "updated"
            (newRecord peerInfoList r listenAddr).info with ⟨line, hline⟩
          rw [registerPeer_of_found order args peerInfoList r listenAddr hr.record hr.lock found
            hfound, if_neg (not_not.mpr hprint), hline] at hu
          simp only [Option.some.injEq, PeerUpdate.mk.injEq] at hu
          exact hu.1.symm
      refine ⟨hok, ?_, ?_⟩
      · rw [map_name_refreshPeer]
        exact h.names
      · rw [haddr]
        exact peerTable_refreshPeer peerInfoList m h found hmem _

/-- A sweep that finds the names does not fail. -/
theorem sweepPeers_names (order : ByteOrder) (hnames : PrintsNames args r)
    (peerInfoList : List PeerRecord) :
    (sweepPeers order args r peerInfoList).ending = .ok () := by
  induction peerInfoList with
  | nil => rfl
  | cons peer rest ih =>
      rw [sweepPeers]
      by_cases hexpired : peerExpired args r.swept peer.info = true
      · rw [if_pos hexpired]
        by_cases hprint : args.printProgress = true
        · rcases hnames.peerLine hprint order (.removal peer.name) "removed" peer.info with
            ⟨line, hline⟩
          simp only [if_neg (not_not.mpr hprint), hline]
          exact ih
        · rw [if_pos hprint]
          exact ih
      · rw [if_neg hexpired]
        exact ih

theorem peerTable_filter (peerInfoList : List PeerRecord) (alive : Int64 → Bool) :
    peerTable (peerInfoList.filter fun peer => alive peer.info.lastConnected) =
      sweep alive (peerTable peerInfoList) := by
  rw [peerTable, peerTable, sweep, List.filter_map]
  rfl

/-- A request whose payload has memory is decoded, or it fails. -/
theorem receiveRegisterPeer_exists (order : ByteOrder) (hr : Obliging r) :
    ∃ outcome, receiveRegisterPeer order r = some outcome := by
  have hreceive := receiveCommand_exists .bootstrap order (r.memory .receive) (r.heap .receive)
    r.arrivals fun n rest hann => Or.inr (hr.receive n rest hann)
  rcases hreceive with ⟨interruption | received, hreceive⟩
  · rw [receiveRegisterPeer, hreceive]
    exact ⟨_, rfl⟩
  · rw [receiveRegisterPeer, hreceive]
    simp only
    rcases (commandRegisterPeerDeserialize order (received.buffer (r.heap .frame)) .start).1 with
      code | command
    · exact ⟨_, rfl⟩
    · exact ⟨_, rfl⟩

/-- A request that is not decoded leaves the table. -/
theorem handle_not_decoded (args : BootstrapArgs) (peerInfoList : List PeerRecord)
    (hr : Obliging r) (hnone : registrationOf order r = none) :
    ∃ handled, handleOnePeerDiscoveryRequest order args peerInfoList r = some handled ∧
      handled.peerInfoList = peerInfoList ∧ handled.sent = [] := by
  rcases receiveRegisterPeer_exists order hr with ⟨interruption | command, hreceive⟩
  · rw [handleOnePeerDiscoveryRequest, hreceive]
    exact ⟨_, rfl, rfl, rfl⟩
  · rw [registrationOf, hreceive] at hnone
    exact absurd hnone (by simp only [reduceCtorEq, not_false_eq_true])

/-- A request that is decoded is a beat of the table, and is answered with the
    table it leaves. -/
theorem handle_decoded (hnames : PrintsNames args r)
    (hcompare : args.compareFunction = some (comparePeerInfo order)) (hr : Obliging r)
    (h : WellKept peerInfoList m) (b : Beat SockaddrIn6 Int64 Int64)
    (hsome : registrationOf order r = some b) :
    ∃ handled, handleOnePeerDiscoveryRequest order args peerInfoList r = some handled ∧
      WellKept handled.peerInfoList (beatMap (stillAlive args) m b) ∧
      handled.ending = (replyWithPeerList order r handled.peerInfoList).1 ∧
      handled.sent = (replyWithPeerList order r handled.peerInfoList).2 := by
  unfold registrationOf at hsome
  split at hsome
  · rename_i command hreceive
    rw [Option.some.injEq] at hsome
    rcases registerPeer_touches hnames hcompare hr h command.toSockaddrIn6 with
      ⟨u, hu, hending, hnodup, htouch⟩
    have hswept := sweepPeers_names order hnames u.peerInfoList
    have hfilter := sweepPeers_ok order args r u.peerInfoList hswept
    simp only [not_peerExpired] at hfilter
    rw [handleOnePeerDiscoveryRequest, hreceive]
    simp only [hu, hending, hswept]
    refine ⟨_, rfl, ⟨?_, ?_⟩, rfl, rfl⟩
    · simp only [hfilter]
      exact hnodup.sublist (List.filter_sublist.map PeerRecord.name)
    · have hbeat := h.represents.beat (stillAlive args) b
      rw [← hsome] at hbeat ⊢
      simp only at hbeat
      simp only [hfilter]
      rw [peerTable_filter, htouch]
      exact hbeat
  · exact absurd hsome (by simp only [reduceCtorEq, not_false_eq_true])

/-- A run of requests leaves the map their beats build up. -/
theorem serveRequests_wellKept (hcompare : args.compareFunction = some (comparePeerInfo order))
    (requests : List PeerRequest) (hnames : ∀ r ∈ requests, PrintsNames args r)
    (hr : ∀ r ∈ requests, Obliging r) (h : WellKept peerInfoList m) :
    ∃ peerInfoList', serveRequests order args peerInfoList requests = some peerInfoList' ∧
      WellKept peerInfoList' ((registrations order requests).foldl (beatMap (stillAlive args)) m)
    := by
  induction requests generalizing peerInfoList m with
  | nil => exact ⟨peerInfoList, rfl, h⟩
  | cons r requests ih =>
      have hfirst := hr r List.mem_cons_self
      have hrest : ∀ r ∈ requests, Obliging r := fun q hq => hr q (List.mem_cons_of_mem r hq)
      have hnamesRest : ∀ r ∈ requests, PrintsNames args r :=
        fun q hq => hnames q (List.mem_cons_of_mem r hq)
      rcases hb : registrationOf order r with _ | b
      · rcases handle_not_decoded args peerInfoList hfirst hb with
          ⟨handled, hrun, hsame, _⟩
        rcases ih hnamesRest hrest h with ⟨final, hfinal, hkept⟩
        refine ⟨final, ?_, ?_⟩
        · rw [serveRequests, Run.run_cons, hrun]
          rw [serveRequests] at hfinal
          exact ⟨_, rfl, by rw [hsame]; exact hfinal⟩
        · rw [registrations, List.filterMap_cons_none hb]
          exact hkept
      · rcases handle_decoded (hnames r List.mem_cons_self) hcompare hfirst h b hb with
          ⟨handled, hrun, hkept, _⟩
        rcases ih hnamesRest hrest hkept with ⟨final, hfinal, hkept'⟩
        refine ⟨final, ?_, ?_⟩
        · rw [serveRequests, Run.run_cons, hrun]
          exact ⟨_, rfl, hfinal⟩
        · rw [registrations, List.filterMap_cons_some hb, List.foldl_cons]
          exact hkept'

end Serving

/-- What a server sends that leaves this table: the table if it succeeds, and
    never anything else. It succeeds if the memory for the reply is granted and
    every byte is accepted. -/
structure Replies (order : ByteOrder) (r : PeerRequest) (handled : HandledPeer) : Prop where
  carries : handled.ending = .ok () →
    CarriesPeerList handled.sent (handled.peerInfoList.map PeerRecord.info)
  begins : handled.sent = [] ∨ ∃ frame,
    CarriesPeerList frame (handled.peerInfoList.map PeerRecord.info) ∧ handled.sent <+: frame
  succeeds :
    let infos := handled.peerInfoList.map PeerRecord.info
    (r.memory .encode).Grants (peerInfoListBytes order infos).length →
    (r.memory .reply).Grants (24 + (peerInfoListBytes order infos).length) →
    (sendAll (peerListFrame order infos) r.acceptances).1 = some (.ok ()) →
    handled.ending = .ok ()

theorem replies_of_reply (order : ByteOrder) (r : PeerRequest) (handled : HandledPeer)
    (hunlock : r.unlock = 0)
    (hending : handled.ending = (replyWithPeerList order r handled.peerInfoList).1)
    (hsent : handled.sent = (replyWithPeerList order r handled.peerInfoList).2) :
    Replies order r handled where
  carries := by
    intro hok
    rw [hending] at hok
    rcases replyWithPeerList_cases order r handled.peerInfoList with
      ⟨_, hne⟩ | ⟨buffer, hbytes, hsend, hiff⟩
    · exact absurd hok hne
    · have hall := sendAll_success r.acceptances _ _ (Prod.ext (hiff.mp hok) rfl)
      rw [hsent, hsend.trans hall]
      exact peerListFrame_carries order _ buffer hbytes
  begins := by
    rcases replyWithPeerList_cases order r handled.peerInfoList with
      ⟨hnothing, _⟩ | ⟨buffer, hbytes, hsend, _⟩
    · exact Or.inl (hsent.trans hnothing)
    · refine Or.inr ⟨_, peerListFrame_carries order _ buffer hbytes, ?_⟩
      rw [hsent, hsend]
      exact sendAll_sent r.acceptances _
  succeeds := by
    intro infos hencode hreply hsend
    rw [hending]
    exact replyWithPeerList_ok order r handled.peerInfoList hencode hunlock hreply hsend

/-- After any run of requests, one more request leaves the table alone if it is
    not decoded. Otherwise the table then holds, for each address and once, the
    time of its last registration if that is still alive, and nothing else, and
    the reply carries this table. -/
theorem peerTable_keepAlive (order : ByteOrder) (args : BootstrapArgs)
    (requests : List PeerRequest) (r : PeerRequest) (hquiet : args.printProgress = false)
    (hcompare : args.compareFunction = some (comparePeerInfo order))
    (hr : ∀ q ∈ requests ++ [r], Obliging q)
    (hclock : NondecreasingClock order (requests ++ [r])) :
    ∃ before handled, serveRequests order args [] requests = some before ∧
      handleOnePeerDiscoveryRequest order args before r = some handled ∧
      (registrationOf order r = none → handled.peerInfoList = before ∧ handled.sent = []) ∧
      ∀ b, registrationOf order r = some b →
        (handled.peerInfoList.map fun peer => peer.info.listenAddr).Nodup ∧
        (∀ info : PeerInfo, (∃ peer ∈ handled.peerInfoList, peer.info = info) ↔
          lastSeen (registrations order (requests ++ [r])) info.listenAddr =
              some info.lastConnected ∧
            (r.swept.toInt - info.lastConnected.toInt) * 10 ^ 6 ≤
              args.peerKeepaliveMicroseconds.toNat) ∧
        Replies order r handled := by
  have hlast : Obliging r := hr r (List.mem_append_right _ List.mem_cons_self)
  rcases serveRequests_wellKept hcompare requests (fun q _ => printsNames_of_quiet hquiet q)
    (fun q hq => hr q (List.mem_append_left _ hq)) wellKept_nil with
    ⟨before, hrun, hkept⟩
  rcases hb : registrationOf order r with _ | b
  · rcases handle_not_decoded args before hlast hb with
      ⟨handled, hhandled, hsame, hnothing⟩
    exact ⟨before, handled, hrun, hhandled, fun _ => ⟨hsame, hnothing⟩, fun b hc =>
      absurd hc (by simp only [reduceCtorEq, not_false_eq_true])⟩
  rcases handle_decoded (printsNames_of_quiet hquiet r) hcompare hlast hkept b hb with
    ⟨handled, hhandled, hkept', hending, hsent⟩
  refine ⟨before, handled, hrun, hhandled, fun hc =>
    absurd hc (by simp only [reduceCtorEq, not_false_eq_true]), ?_⟩
  intro b' hb'
  have hnodup := hkept'.represents.nodup
  rw [peerTable_map_fst] at hnodup
  refine ⟨hnodup, ?_, replies_of_reply order r handled hlast.unlock hending hsent⟩
  have hclosed := foldl_beatMap (stillAlive args) (registrations order requests) b
    (alive_of_clock args requests hclock hb)
  intro info
  -- The map that the beats build up is the last sighting, if it is alive.
  have hfold : beatMap (stillAlive args) ((registrations order requests).foldl
      (beatMap (stillAlive args)) fun _ => none) b info.listenAddr =
      (lastSeen (registrations order (requests ++ [r])) info.listenAddr).filter
        (stillAlive args r.swept) := by
    rw [registrations_concat requests hb, ← swept_of_registrationOf hb,
      ← hclosed info.listenAddr, List.foldl_append, List.foldl_cons, List.foldl_nil]
  have hmem := hkept'.represents.mem_iff info.listenAddr info.lastConnected
  rw [hfold, Option.filter_eq_some_iff, stillAlive, decide_eq_true_iff] at hmem
  rw [← hmem, mem_peerTable_iff]

/-- The address of zeros at a port. -/
def sampleAddr (port : UInt16) : SockaddrIn6 := ⟨10, port, 0, Bytes.zero 16, 0⟩

/-- A thousand bytes are accepted at once. -/
def sampleAcceptances : List Acceptance := [.accepted ⟨1000, by decide⟩]

/-- A request of the peer at a port, handled at one time. -/
def samplePeerRequest (port : UInt16) (now : Int64) : PeerRequest where
  arrivals :=
    [.bytes ⟨headerImage COMMAND_REGISTER_PEER 32 ++
      (sockaddrBytes (sampleAddr port) ++ List.replicate 4 0), by
        rw [List.length_append, List.length_append, headerImage_length, sockaddrBytes_length,
          List.length_replicate]
        decide⟩]
  acceptances := sampleAcceptances
  memory := fun _ => .generous
  heap := fun _ _ => 0
  registered := now
  swept := now
  lock := 0
  unlock := 0
  getnameinfo := fun _ => none
  inetNtop := fun _ => none

theorem samplePeerRequest_obliging (port : UInt16) (now : Int64) :
    Obliging (samplePeerRequest port now) where
  receive := by
    intro n rest hann
    have hsame : recvAll sizeofCommandHeader (samplePeerRequest port now).arrivals = some
        (.ok (headerImage COMMAND_REGISTER_PEER 32),
          [.bytes ⟨sockaddrBytes (sampleAddr port) ++ List.replicate 4 0, by
            rw [List.length_append, sockaddrBytes_length, List.length_replicate]
            decide⟩]) := rfl
    rw [Announces, hsame, Option.some.injEq, Prod.mk.injEq, Except.ok.injEq] at hann
    rw [← (headerImage_inj _ _ _ _ hann.1).2]
    exact Allocator.generous_grants 48 (by decide) 1 48 (Nat.le_refl 48)
  record := Allocator.generous_grants _ (by decide) 0 sizeofPeerInfo (Nat.le_refl _)
  node := Allocator.generous_grants _ (by decide) 0 sizeofNode (Nat.le_refl _)
  lock := rfl
  unlock := rfl

/-- The peers at two ports register, the second one five seconds after the
    first. -/
theorem registrations_sample :
    registrations .little ([samplePeerRequest 1 0] ++ [samplePeerRequest 2 5]) =
      [⟨sampleAddr 1, 0, 0⟩, ⟨sampleAddr 2, 5, 5⟩] := rfl

/-- With a keep-alive time of one second, the table then holds what was last
    heard of at most one second ago. -/
theorem peerTable_keepAlive_sample :
    ∃ before handled,
      serveRequests .little ⟨1000000, false, some (comparePeerInfo .little)⟩ []
        [samplePeerRequest 1 0] = some before ∧
      handleOnePeerDiscoveryRequest .little ⟨1000000, false, some (comparePeerInfo .little)⟩
        before (samplePeerRequest 2 5) = some handled ∧
      ∀ info : PeerInfo, (∃ peer ∈ handled.peerInfoList, peer.info = info) ↔
        lastSeen [⟨sampleAddr 1, (0 : Int64), (0 : Int64)⟩, ⟨sampleAddr 2, 5, 5⟩]
            info.listenAddr = some info.lastConnected ∧
          (5 - info.lastConnected.toInt) * 10 ^ 6 ≤ 1000000 := by
  have hclock : NondecreasingClock .little
      ([samplePeerRequest 1 0] ++ [samplePeerRequest 2 5]) := by
    rw [NondecreasingClock, registrations_sample]
    decide
  have hr : ∀ q ∈ [samplePeerRequest 1 0] ++ [samplePeerRequest 2 5], Obliging q := by
    intro q hq
    rcases List.mem_pair.mp hq with rfl | rfl
    · exact samplePeerRequest_obliging 1 0
    · exact samplePeerRequest_obliging 2 5
  rcases peerTable_keepAlive .little ⟨1000000, false, some (comparePeerInfo .little)⟩
    [samplePeerRequest 1 0] (samplePeerRequest 2 5) rfl rfl hr hclock with
    ⟨before, handled, hrun, hhandled, _, htable⟩
  exact ⟨before, handled, hrun, hhandled, (htable ⟨sampleAddr 2, 5, 5⟩ rfl).2.1⟩

end LeoCoin
