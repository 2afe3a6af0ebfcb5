import LeoCoin.Core.PeerDiscoveryBootstrapServer
import LeoCoin.Theory.ReceiveBounds

/-!
# Registration

What the bootstrap server does with the record of a peer that registers.

The record is freed on every failure, and after a refresh it is freed as well.
Up to the point where it is put into the table that is right, and in the branch
that refreshes an entry the record never gets there. In the branch that adds
the peer it is in the table before its name is looked up for the screen, and a
lookup that fails frees it there. That takes a server that prints its progress,
which the one that is run does.

`Registers` lists the ways through, one constructor each, and everything else
is read off it.

## Main definitions

* `FindsPeer`: What the search of the table returns.
* `Registers`: What adding or refreshing a peer leaves.
* `LinkedAndReleased`: The record is freed behind its entry.
* `RegistrationClean`: A failed registration leaves no freed entry.
* `unnamedPeer`: A request whose peer cannot be looked up.

## Theorems

* `lt_freshName`: The new record has a name of its own.
* `registerPeer_registers`, `registers_of_registerPeer`: There is a way through,
  and no other.
* `registerPeer_of_linkedAndReleased`: The way that frees an entry.
* `handle_of_register_error`: A failure is what the handler returns.
* `not_registrationClean`: That way is not clean.
* `registrationClean_iff`: The condition is exact.
-/

namespace LeoCoin

theorem lt_freshName (peerInfoList : List PeerRecord) :
    ∀ peer ∈ peerInfoList, peer.name < freshName peerInfoList := by
  induction peerInfoList with
  | nil => exact fun peer hp => absurd hp List.not_mem_nil
  | cons first rest ih =>
      have hcons : freshName (first :: rest) = max (first.name + 1) (freshName rest) := rfl
      intro peer hp
      rw [hcons]
      rcases List.mem_cons.mp hp with rfl | hrest
      · omega
      · have hlt := ih peer hrest
        omega

/-- The record of a peer that registers. -/
def newRecord (peerInfoList : List PeerRecord) (r : PeerRequest) (listenAddr : SockaddrIn6) :
    PeerRecord where
  name := freshName peerInfoList
  info := { listenAddr := listenAddr, lastConnected := r.registered }

/-- The list has a compare function, and a search for the peer by it returns
    the given entry, or none. -/
def FindsPeer (args : BootstrapArgs) (peerInfoList : List PeerRecord) (info : PeerInfo)
    (found : Option PeerRecord) : Prop :=
  ∃ compare, args.compareFunction = some compare ∧
    (peerInfoList.find? fun peer => compare info peer.info == 0) = found

/-- A lookup of the name of the peer that registers fails. -/
def LookupFails (r : PeerRequest) : Prop :=
  r.getnameinfo .registration = none ∨ r.inetNtop .registration = none

/-- What adding or refreshing a peer leaves, by the way it takes. -/
inductive Registers (args : BootstrapArgs) (peerInfoList : List PeerRecord) (r : PeerRequest)
    (listenAddr : SockaddrIn6) : PeerUpdate → Prop
  | locked (h : r.lock ≠ 0) :
      Registers args peerInfoList r listenAddr
        ⟨.error (.errno r.lock), peerInfoList, [freshName peerInfoList], []⟩
  | incomparable (h : args.compareFunction = none) :
      Registers args peerInfoList r listenAddr
        ⟨.error .failureLinkedListNoCompareFunction, peerInfoList, [freshName peerInfoList], []⟩
  | unlinked (h : ¬ (r.memory .node).grants 0 sizeofNode = true) :
      Registers args peerInfoList r listenAddr
        ⟨.error .failureCouldNotMalloc, peerInfoList, [freshName peerInfoList], []⟩
  | added (lines : List String)
      (hnew : FindsPeer args peerInfoList (newRecord peerInfoList r listenAddr).info none) :
      Registers args peerInfoList r listenAddr
        ⟨.ok (), newRecord peerInfoList r listenAddr :: peerInfoList, [], lines⟩
  | addedAndReleased (hlock : r.lock = 0)
      (hnew : FindsPeer args peerInfoList (newRecord peerInfoList r listenAddr).info none)
      (hnode : (r.memory .node).grants 0 sizeofNode = true) (hprint : args.printProgress = true)
      (hlookup : LookupFails r) :
      Registers args peerInfoList r listenAddr
        ⟨.error .failureNetworkFunction, newRecord peerInfoList r listenAddr :: peerInfoList,
          [freshName peerInfoList], []⟩
  | refreshed (ending : Except ReturnCode Unit) (lines : List String) (found : PeerRecord)
      (hfound : FindsPeer args peerInfoList (newRecord peerInfoList r listenAddr).info
        (some found)) (hquiet : args.printProgress = false → ending = .ok ()) :
      Registers args peerInfoList r listenAddr
        ⟨ending, refreshPeer peerInfoList found r.registered, [freshName peerInfoList], lines⟩

theorem peerLine_error_iff (order : ByteOrder) (r : PeerRequest) (lookup : PeerLookup)
    (what : String) (peer : PeerInfo) (code : ReturnCode) :
    peerLine order r lookup what peer = .error code ↔
      code = .failureNetworkFunction ∧
        (r.getnameinfo lookup = none ∨ r.inetNtop lookup = none) := by
  unfold peerLine
  rcases r.getnameinfo lookup with _ | hostname
  · simp only [Except.error.injEq, true_or, and_true, eq_comm]
  · rcases r.inetNtop lookup with _ | text
    · simp only [Except.error.injEq, or_true, and_true, eq_comm]
    · simp only [reduceCtorEq, or_false, and_false]

/-- The search of the table, as the handler makes it. -/
theorem linkedListFind_records (args : BootstrapArgs) (peerInfoList : List PeerRecord)
    (record : PeerRecord) (found : Option PeerRecord) :
    linkedListFind (args.compareFunction.map fun compare peer1 peer2 =>
      compare peer1.info peer2.info) peerInfoList record = .ok found ↔
        FindsPeer args peerInfoList record.info found := by
  unfold linkedListFind FindsPeer
  rcases args.compareFunction with _ | compare
  · simp only [Option.map_none, reduceCtorEq, false_and, exists_false]
  · simp only [Option.map_some, Except.ok.injEq, Option.some.injEq, exists_eq_left']

section Ways

variable (order : ByteOrder) (args : BootstrapArgs) (peerInfoList : List PeerRecord)
  (r : PeerRequest) (listenAddr : SockaddrIn6)

/-- With a record, under the lock, a peer that is not found is added, and then
    looked up to be printed. -/
theorem registerPeer_of_new (hrecord : (r.memory .record).grants 0 sizeofPeerInfo = true)
    (hlock : r.lock = 0)
    (hnew : FindsPeer args peerInfoList (newRecord peerInfoList r listenAddr).info none)
    (hnode : (r.memory .node).grants 0 sizeofNode = true) :
    registerPeer order args peerInfoList r listenAddr =
      if ¬ args.printProgress then
        some ⟨.ok (), newRecord peerInfoList r listenAddr :: peerInfoList, [], []⟩
      else match peerLine order r .registration "added"
          (newRecord peerInfoList r listenAddr).info with
      | .error code => some ⟨.error code, newRecord peerInfoList r listenAddr :: peerInfoList,
          [freshName peerInfoList], []⟩
      | .ok line =>
        some ⟨.ok (), newRecord peerInfoList r listenAddr :: peerInfoList, [], [line]⟩ := by
  have hfind := (linkedListFind_records args peerInfoList _ none).mpr hnew
  unfold newRecord at hfind
  unfold registerPeer
  rw [if_neg (not_not.mpr hrecord)]
  simp only
  rw [if_neg (not_not.mpr hlock), hfind]
  simp only [linkedListPrepend, if_pos hnode]
  rfl

/-- With a record, under the lock, a peer that is found is refreshed, and then
    looked up to be printed. -/
theorem registerPeer_of_found (hrecord : (r.memory .record).grants 0 sizeofPeerInfo = true)
    (hlock : r.lock = 0) (found : PeerRecord)
    (hfound : FindsPeer args peerInfoList (newRecord peerInfoList r listenAddr).info
      (some found)) :
    registerPeer order args peerInfoList r listenAddr =
      if ¬ args.printProgress then
        some ⟨.ok (), refreshPeer peerInfoList found r.registered, [freshName peerInfoList], []⟩
      else match peerLine order r .registration "updated"
          (newRecord peerInfoList r listenAddr).info with
      | .error code => some ⟨.error code, refreshPeer peerInfoList found r.registered,
          [freshName peerInfoList], []⟩
      | .ok line => some ⟨.ok (), refreshPeer peerInfoList found r.registered,
          [freshName peerInfoList], [line]⟩ := by
  have hfind := (linkedListFind_records args peerInfoList _ (some found)).mpr hfound
  unfold newRecord at hfind
  unfold registerPeer
  rw [if_neg (not_not.mpr hrecord)]
  simp only
  rw [if_neg (not_not.mpr hlock), hfind]
  rfl

/-- With a record there is a way through, and it is one of those listed. -/
theorem registerPeer_registers
    (hrecord : (r.memory .record).grants 0 sizeofPeerInfo = true) :
    ∃ u, registerPeer order args peerInfoList r listenAddr = some u ∧
      Registers args peerInfoList r listenAddr u := by
  by_cases hlock : r.lock = 0
  · rcases hcompare : args.compareFunction with _ | compare
    · refine ⟨_, ?_, .incomparable hcompare⟩
      simp only [registerPeer, hrecord, hlock, hcompare, linkedListFind, Option.map_none, ne_eq,
        not_true_eq_false, if_false]
    rcases hfind : peerInfoList.find? fun peer =>
        compare (newRecord peerInfoList r listenAddr).info peer.info == 0 with _ | found
    · have hnew : FindsPeer args peerInfoList (newRecord peerInfoList r listenAddr).info none :=
        ⟨compare, hcompare, hfind⟩
      by_cases hnode : (r.memory .node).grants 0 sizeofNode = true
      · rw [registerPeer_of_new order args peerInfoList r listenAddr hrecord hlock hnew hnode]
        by_cases hprint : args.printProgress = true
        · rw [if_neg (not_not.mpr hprint)]
          rcases hline : peerLine order r .registration "added"
              (newRecord peerInfoList r listenAddr).info with code | line
          · rcases (peerLine_error_iff order r _ _ _ code).mp hline with ⟨rfl, hlookup⟩
            exact ⟨_, rfl, .addedAndReleased hlock hnew hnode hprint hlookup⟩
          · exact ⟨_, rfl, .added [line] hnew⟩
        · rw [if_pos hprint]
          exact ⟨_, rfl, .added [] hnew⟩
      · refine ⟨_, ?_, .unlinked hnode⟩
        have hmissing := (linkedListFind_records args peerInfoList _ none).mpr hnew
        unfold newRecord at hmissing
        simp only [registerPeer, hrecord, hlock, hmissing, linkedListPrepend, if_neg hnode, ne_eq,
          not_true_eq_false, if_false]
    · have hfound : FindsPeer args peerInfoList (newRecord peerInfoList r listenAddr).info
          (some found) := ⟨compare, hcompare, hfind⟩
      rw [registerPeer_of_found order args peerInfoList r listenAddr hrecord hlock found hfound]
      by_cases hprint : args.printProgress = true
      · have hloud : args.printProgress ≠ false := by
          rw [hprint]
          simp only [ne_eq, Bool.true_eq_false, not_false_eq_true]
        rw [if_neg (not_not.mpr hprint)]
        rcases peerLine order r .registration "updated"
            (newRecord peerInfoList r listenAddr).info with code | line
        · exact ⟨_, rfl, .refreshed _ [] found hfound fun hc => absurd hc hloud⟩
        · exact ⟨_, rfl, .refreshed _ [line] found hfound fun _ => rfl⟩
      · rw [if_pos hprint]
        exact ⟨_, rfl, .refreshed _ [] found hfound fun _ => rfl⟩
  · refine ⟨_, ?_, .locked hlock⟩
    simp only [registerPeer, hrecord, if_pos hlock, not_true_eq_false, if_false]

/-- Every way through needs the record, and is one of those listed. -/
theorem registers_of_registerPeer (u : PeerUpdate)
    (h : registerPeer order args peerInfoList r listenAddr = some u) :
    (r.memory .record).grants 0 sizeofPeerInfo = true ∧
      Registers args peerInfoList r listenAddr u := by
  by_cases hrecord : (r.memory .record).grants 0 sizeofPeerInfo = true
  · rcases registerPeer_registers order args peerInfoList r listenAddr hrecord with
      ⟨u', hu, hways⟩
    rw [h, Option.some.injEq] at hu
    rw [hu]
    exact ⟨hrecord, hways⟩
  · rw [registerPeer, if_pos hrecord] at h
    exact absurd h (by simp only [reduceCtorEq, not_false_eq_true])

end Ways

/-- The peer is new, its record is granted and linked, and a lookup fails that
    is only made to print. -/
structure LinkedAndReleased (args : BootstrapArgs) (peerInfoList : List PeerRecord)
    (r : PeerRequest) (listenAddr : SockaddrIn6) : Prop where
  record : (r.memory .record).grants 0 sizeofPeerInfo = true
  lock : r.lock = 0
  new : FindsPeer args peerInfoList ⟨listenAddr, r.registered⟩ none
  node : (r.memory .node).grants 0 sizeofNode = true
  printProgress : args.printProgress = true
  lookup : LookupFails r

/-- In that case the record is freed behind the entry at the head. -/
theorem registerPeer_of_linkedAndReleased (order : ByteOrder) (args : BootstrapArgs)
    (peerInfoList : List PeerRecord) (r : PeerRequest) (listenAddr : SockaddrIn6)
    (h : LinkedAndReleased args peerInfoList r listenAddr) :
    registerPeer order args peerInfoList r listenAddr =
      some ⟨.error .failureNetworkFunction,
        newRecord peerInfoList r listenAddr :: peerInfoList, [freshName peerInfoList], []⟩ := by
  have hline := (peerLine_error_iff order r .registration "added"
    (newRecord peerInfoList r listenAddr).info .failureNetworkFunction).mpr ⟨rfl, h.lookup⟩
  rw [registerPeer_of_new order args peerInfoList r listenAddr h.record h.lock h.new h.node,
    if_neg (not_not.mpr h.printProgress), hline]

/-- The peer of a request is in the table already. -/
def Refreshes (args : BootstrapArgs) (peerInfoList : List PeerRecord) (r : PeerRequest)
    (listenAddr : SockaddrIn6) : Prop :=
  ∃ found, FindsPeer args peerInfoList ⟨listenAddr, r.registered⟩ (some found)

/-- If adding or refreshing the peer fails, then that failure is what the
    handler returns, no entry of the table has been freed, and if the peer was
    to be added the table is what it was. -/
def RegistrationClean (order : ByteOrder) (args : BootstrapArgs)
    (peerInfoList : List PeerRecord) (r : PeerRequest) : Prop :=
  ∀ command u code, receiveRegisterPeer order r = some (.ok command) →
    registerPeer order args peerInfoList r command.toSockaddrIn6 = some u →
    u.ending = .error code →
    ∃ handled, handleOnePeerDiscoveryRequest order args peerInfoList r = some handled ∧
      handled.ending = .error (.failed code) ∧
      (∀ peer ∈ handled.peerInfoList, peer.name ∉ handled.released) ∧
      (¬ Refreshes args peerInfoList r command.toSockaddrIn6 →
        handled.peerInfoList = peerInfoList)

/-- The handler returns a failure of this part, with the table this part left. -/
theorem handle_of_register_error (order : ByteOrder) (args : BootstrapArgs)
    (peerInfoList : List PeerRecord) (r : PeerRequest) (command : CommandRegisterPeer)
    (u : PeerUpdate) (code : ReturnCode)
    (hreceive : receiveRegisterPeer order r = some (.ok command))
    (hregister : registerPeer order args peerInfoList r command.toSockaddrIn6 = some u)
    (hending : u.ending = .error code) :
    handleOnePeerDiscoveryRequest order args peerInfoList r =
      some ⟨.error (.failed code), u.peerInfoList, u.released, [], u.printed⟩ := by
  rw [handleOnePeerDiscoveryRequest, hreceive]
  simp only [hregister, hending]

/-- Refreshing keeps the names of the records. -/
theorem mem_refreshPeer (peerInfoList : List PeerRecord) (found : PeerRecord) (t : Int64)
    (peer : PeerRecord) (h : peer ∈ refreshPeer peerInfoList found t) :
    ∃ old ∈ peerInfoList, peer.name = old.name := by
  rcases List.mem_map.mp h with ⟨old, hold, rfl⟩
  refine ⟨old, hold, ?_⟩
  by_cases hname : old.name = found.name
  · rw [if_pos hname]
  · rw [if_neg hname]

/-- That way is not clean: the record at the head is among those freed. -/
theorem not_registrationClean (order : ByteOrder) (args : BootstrapArgs)
    (peerInfoList : List PeerRecord) (r : PeerRequest) (command : CommandRegisterPeer)
    (hreceive : receiveRegisterPeer order r = some (.ok command))
    (hbad : LinkedAndReleased args peerInfoList r command.toSockaddrIn6) :
    ¬ RegistrationClean order args peerInfoList r := by
  intro h
  have hregister := registerPeer_of_linkedAndReleased order args peerInfoList r _ hbad
  rcases h command _ _ hreceive hregister rfl with ⟨handled, hrun, _, hfree, _⟩
  rw [handle_of_register_error order args peerInfoList r command _ _ hreceive hregister rfl,
    Option.some.injEq] at hrun
  rw [← hrun] at hfree
  exact hfree (newRecord peerInfoList r command.toSockaddrIn6) List.mem_cons_self
    List.mem_cons_self

/-- A failed registration leaves no freed entry, and no changed table if the
    peer was to be added, exactly if the record is not freed behind its entry. -/
theorem registrationClean_iff (order : ByteOrder) (args : BootstrapArgs)
    (peerInfoList : List PeerRecord) (r : PeerRequest) :
    RegistrationClean order args peerInfoList r ↔
      ∀ command, receiveRegisterPeer order r = some (.ok command) →
        ¬ LinkedAndReleased args peerInfoList r command.toSockaddrIn6 := by
  constructor
  · intro h command hreceive hbad
    exact not_registrationClean order args peerInfoList r command hreceive hbad h
  · intro h command u code hreceive hregister hending
    refine ⟨_, handle_of_register_error order args peerInfoList r command u code hreceive
      hregister hending, rfl, ?_⟩
    have hfresh : ∀ peer ∈ peerInfoList, peer.name ∉ [freshName peerInfoList] := by
      intro peer hp hmem
      have hlt := lt_freshName peerInfoList peer hp
      rw [List.mem_singleton.mp hmem] at hlt
      exact absurd hlt (Nat.lt_irrefl _)
    rcases registers_of_registerPeer order args peerInfoList r _ u hregister with
      ⟨hrecord, hways⟩
    cases hways with
    | locked _ => exact ⟨hfresh, fun _ => rfl⟩
    | incomparable _ => exact ⟨hfresh, fun _ => rfl⟩
    | unlinked _ => exact ⟨hfresh, fun _ => rfl⟩
    | added lines _ => exact absurd hending (by simp only [reduceCtorEq, not_false_eq_true])
    | addedAndReleased hlock hnew hnode hprint hlookup =>
        exact absurd ⟨hrecord, hlock, hnew, hnode, hprint, hlookup⟩ (h command hreceive)
    | refreshed ending lines found hfound _ =>
        refine ⟨?_, fun hnew => absurd ⟨found, hfound⟩ hnew⟩
        intro peer hp
        rcases mem_refreshPeer peerInfoList found _ peer hp with ⟨old, hold, hname⟩
        rw [hname]
        exact hfresh old hold

/-- A request of zeros behind the header. The address has no family, and cannot
    be looked up. -/
def unnamedPeer : PeerRequest where
  arrivals :=
    [.bytes ⟨headerImage COMMAND_REGISTER_PEER 32 ++ List.replicate 32 0, by decide⟩]
  acceptances := []
  memory := fun _ => .generous
  heap := fun _ _ => 0
  registered := 0
  swept := 0
  lock := 0
  unlock := 0
  getnameinfo := fun _ => none
  inetNtop := fun _ => none

/-- A server that prints its progress and knows nobody leaves a freed entry. -/
theorem unnamedPeer_not_registrationClean :
    ¬ ∀ (order : ByteOrder) (args : BootstrapArgs) (peerInfoList : List PeerRecord)
      (r : PeerRequest), RegistrationClean order args peerInfoList r := by
  intro h
  have hreceive : ∃ command, receiveRegisterPeer .little unnamedPeer = some (.ok command) :=
    ⟨_, rfl⟩
  rcases hreceive with ⟨command, hreceive⟩
  refine not_registrationClean .little ⟨0, true, some (comparePeerInfo .little)⟩ [] unnamedPeer
    command hreceive ?_ (h _ _ _ _)
  exact
    { record := by decide
      lock := rfl
      new := ⟨_, rfl, rfl⟩
      node := by decide
      printProgress := rfl
      lookup := Or.inl rfl }

end LeoCoin
