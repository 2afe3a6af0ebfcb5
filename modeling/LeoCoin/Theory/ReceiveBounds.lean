import LeoCoin.Core.ConsensusPeerServer
import LeoCoin.Theory.Commands

/-!
# Receive Bounds

Where a received command is written.

The second call of `recv_all` is made exactly if a header of the expected
command has arrived and the function got past `realloc`. It is given the
announced length and an object of the wrapped sum, or no object. So it stays
inside exactly if the sum does not wrap and the object exists. The function
that looks at the result of `realloc` rules out the second cause, and none of
the three rules out the first.

The handler of consensus requests is the general sequence for its command. It
has no outcome if its second call of `recv_all` does not stay inside.

## Main definitions

* `headerImage`: The sixteen bytes of a header.
* `Announces`: A header of the expected command arrives.
* `secondCall`: The second call of `recv_all`.

## Theorems

* `exists_headerImage`, `headerImage_inj`: The bytes that are images of headers.
* `receiveCommand_of_announces`, `receiveCommand_or_announces`: What happens
  behind an accepted header, and without one.
* `receiveCommand_exists`: When receiving has an outcome.
* `receiveCommand_call_iff`: The second call of `recv_all`.
* `secondCall_inside_iff`: When it stays inside.
* `receiveCommand_inside_iff`: The condition on what arrives is exact.
* `receivePeerBlockchain_eq`: The handler of consensus requests.
-/

namespace LeoCoin

open Decoder

/-- The header of a command with a payload of `n` bytes, as it is sent. -/
def headerImage (code : UInt32) (n : UInt64) : List UInt8 :=
  COMMAND_PREFIX.toList ++ bigEndian 4 code.toNat ++ bigEndian 8 n.toNat

theorem headerImage_length (code : UInt32) (n : UInt64) : (headerImage code n).length = 16 := by
  simp only [headerImage, List.length_append, List.Vector.toList_length, bigEndian_length]

/-- The image of a header tells its code and its length. -/
theorem headerImage_inj (code code' : UInt32) (n n' : UInt64)
    (h : headerImage code n = headerImage code' n') : code = code' ∧ n = n' := by
  unfold headerImage at h
  rcases List.append_inj' h (by rw [bigEndian_length, bigEndian_length]) with ⟨hfront, hlen⟩
  have hcode := List.append_cancel_left hfront
  have hc := ByteOrder.image_inj .big 4 _ _ code.toNat_lt code'.toNat_lt hcode
  have hn := ByteOrder.image_inj .big 8 _ _ n.toNat_lt n'.toNat_lt hlen
  exact ⟨UInt32.toNat_inj.mp hc, UInt64.toNat_inj.mp hn⟩

theorem headerImage_take (code : UInt32) (n : UInt64) :
    (headerImage code n).take 4 = COMMAND_PREFIX.toList := by
  rw [headerImage, List.append_assoc, List.take_left' (List.Vector.toList_length _)]

theorem headerImage_command (code : UInt32) (n : UInt64) :
    bigEndianValue (((headerImage code n).drop 4).take 4) = code.toNat := by
  rw [headerImage, List.append_assoc, List.drop_left' (List.Vector.toList_length _),
    List.take_left' (bigEndian_length 4 _), bigEndianValue_bigEndian_of_lt code.toNat_lt]

theorem headerImage_commandLen (code : UInt32) (n : UInt64) :
    bigEndianValue ((headerImage code n).drop 8) = n.toNat := by
  -- The length field begins behind the prefix and the command.
  have hlen : (COMMAND_PREFIX.toList ++ bigEndian 4 code.toNat).length = 8 := by
    simp only [List.length_append, List.Vector.toList_length, bigEndian_length]
  rw [headerImage, List.drop_left' hlen, bigEndianValue_bigEndian_of_lt n.toNat_lt]

/-- Sixteen bytes with the prefix and the code are the image of a header. -/
theorem exists_headerImage (code : UInt32) (bs : List UInt8) (hlen : bs.length = 16)
    (hfront : bs.take 4 = COMMAND_PREFIX.toList)
    (hcode : bigEndianValue ((bs.drop 4).take 4) = code.toNat) : ∃ n, bs = headerImage code n := by
  have hlt := bigEndianValue_lt (bs.drop 8)
  have hspelled := bigEndian_bigEndianValue ((bs.drop 4).take 4)
  have hrest := bigEndian_bigEndianValue (bs.drop 8)
  have hfour : ((bs.drop 4).take 4).length = 4 := by
    rw [List.length_take, List.length_drop]
    omega
  rw [hfour, hcode] at hspelled
  rw [List.length_drop, hlen] at hlt hrest
  refine ⟨UInt64.ofNat (bigEndianValue (bs.drop 8)), ?_⟩
  have hn : (UInt64.ofNat (bigEndianValue (bs.drop 8))).toNat = bigEndianValue (bs.drop 8) :=
    UInt64.toNat_ofNat_of_lt' hlt
  have htail : (bs.drop 4).take 4 ++ bs.drop 8 = bs.drop 4 := by
    have hsplit := List.take_append_drop 4 (bs.drop 4)
    rwa [List.drop_drop] at hsplit
  calc bs = bs.take 4 ++ bs.drop 4 := (List.take_append_drop 4 bs).symm
    _ = COMMAND_PREFIX.toList ++ (bigEndian 4 code.toNat ++ bs.drop 8) := by
        rw [hfront, ← htail, ← hspelled]
    _ = headerImage code _ := by rw [headerImage, hn, hrest, List.append_assoc]

/-- The encoding of a header with the right prefix is its image. -/
theorem headerBytes_eq_headerImage (encoding : ByteOrder) (header : CommandHeader)
    (hfront : header.commandPrefix = COMMAND_PREFIX) :
    headerBytes encoding header = headerImage header.command header.commandLen := by
  rw [headerBytes, headerImage, hfront, storeUInt64_htobe64]

/-- What arrives begins with a header of the expected command, announcing `n`
    bytes, and goes on with `rest`. -/
def Announces (receiver : Receiver) (arrivals : List Arrival) (n : UInt64)
    (rest : List Arrival) : Prop :=
  recvAll sizeofCommandHeader arrivals = some (.ok (headerImage receiver.command n), rest)

/-- Sixteen bytes are decoded to a header exactly if they are its image. -/
theorem commandHeaderDeserialize_image (order : ByteOrder) (heap : Nat → UInt8)
    (bs : List UInt8) (hlen : bs.length = 16) (header : CommandHeader) :
    (commandHeaderDeserialize order (.ofBytes bs heap) .start).1 = .ok header ↔
      header.commandPrefix = COMMAND_PREFIX ∧
        bs = headerImage header.command header.commandLen := by
  have hbs := holds_ofBytes bs heap
  rw [commandHeaderDeserialize_ok_iff order .big (.ofBytes bs heap) (Nat.le_of_eq hlen.symm)
    header]
  refine and_congr_right ?_
  intro hfront
  rw [headerBytes_eq_headerImage .big header hfront, Holds, headerImage_length, ← hlen]
  constructor
  · intro h
    rw [← h]
    exact hbs.symm
  · intro h
    rw [← h]
    exact hbs

/-- How receiving goes on behind an accepted header. -/
theorem receiveCommand_of_announces (receiver : Receiver) (order : ByteOrder)
    (memory : Allocator) (heap : Nat → UInt8) (arrivals rest : List Arrival) (n : UInt64)
    (hgrant : memory.grants 0 sizeofCommandHeader = true)
    (h : Announces receiver arrivals n rest) :
    receiveCommand receiver order memory heap arrivals =
      receivePayload receiver memory (headerImage receiver.command n) n rest := by
  have hheader := (commandHeaderDeserialize_image order heap _
    (headerImage_length receiver.command n) ⟨COMMAND_PREFIX, receiver.command, n⟩).mpr ⟨rfl, rfl⟩
  unfold Announces at h
  unfold receiveCommand
  rw [if_neg (not_not.mpr hgrant), h]
  simp only [hheader, ne_eq, not_true_eq_false, if_false]

/-- If no header is accepted, the function ends with an error before the second
    call of `recv_all`. -/
theorem receiveCommand_or_announces (receiver : Receiver) (order : ByteOrder)
    (memory : Allocator) (heap : Nat → UInt8) (arrivals : List Arrival) :
    (∃ interruption, receiveCommand receiver order memory heap arrivals =
      ⟨some (.error interruption), none⟩) ∨
    (memory.grants 0 sizeofCommandHeader = true ∧
      ∃ n rest, Announces receiver arrivals n rest) := by
  by_cases hgrant : memory.grants 0 sizeofCommandHeader = true
  · unfold receiveCommand
    rw [if_neg (not_not.mpr hgrant)]
    rcases hrecv : recvAll sizeofCommandHeader arrivals with _ | ⟨code | header, rest⟩
    · exact Or.inl ⟨_, rfl⟩
    · exact Or.inl ⟨_, rfl⟩
    simp only
    rcases hdec : (commandHeaderDeserialize order (.ofBytes header heap) .start).1 with
      code | commandHeader
    · exact Or.inl ⟨_, rfl⟩
    simp only
    by_cases hcommand : commandHeader.command = receiver.command
    · rcases (commandHeaderDeserialize_image order heap header
        (recvAll_length _ _ _ _ hrecv) commandHeader).mp hdec with ⟨_, himage⟩
      rw [hcommand] at himage
      exact Or.inr ⟨hgrant, commandHeader.commandLen, rest, by rw [Announces, hrecv, himage]⟩
    · rw [if_pos hcommand]
      exact Or.inl ⟨_, rfl⟩
  · unfold receiveCommand
    rw [if_pos hgrant]
    exact Or.inl ⟨_, rfl⟩

/-- Receiving has an outcome if the memory for the payload is granted, or if
    the function looks at what `realloc` returns. -/
theorem receiveCommand_exists (receiver : Receiver) (order : ByteOrder) (memory : Allocator)
    (heap : Nat → UInt8) (arrivals : List Arrival)
    (h : ∀ n rest, Announces receiver arrivals n rest →
      receiver.checksRealloc = true ∨ memory.grants 1 (16 + n).toNat = true) :
    ∃ outcome, (receiveCommand receiver order memory heap arrivals).outcome = some outcome := by
  rcases receiveCommand_or_announces receiver order memory heap arrivals with
    ⟨interruption, hstop⟩ | ⟨hgrant, n, rest, hann⟩
  · rw [hstop]
    exact ⟨_, rfl⟩
  rw [receiveCommand_of_announces receiver order memory heap arrivals rest n hgrant hann]
  unfold receivePayload
  by_cases hreal : memory.grants 1 (16 + n).toNat = true
  · simp only [hreal, not_true_eq_false, and_false, if_false]
    rcases recvAll n.toNat rest with _ | ⟨code | payload, rest'⟩
    · exact ⟨_, rfl⟩
    · exact ⟨_, rfl⟩
    · exact ⟨_, rfl⟩
  · rcases h n rest hann with hchecks | hgranted
    · simp only [if_pos (And.intro hchecks hreal)]
      exact ⟨_, rfl⟩
    · exact absurd hgranted hreal

/-- What arrives announces one length. -/
theorem announces_unique {receiver : Receiver} {arrivals rest rest' : List Arrival}
    {n n' : UInt64} (h : Announces receiver arrivals n rest)
    (h' : Announces receiver arrivals n' rest') : n = n' ∧ rest = rest' := by
  unfold Announces at h h'
  rw [h, Option.some.injEq, Prod.mk.injEq, Except.ok.injEq] at h'
  exact ⟨(headerImage_inj _ _ _ _ h'.1).2, h'.2⟩

/-- The second call of `recv_all`, as it is made for a payload of `n` bytes. -/
def secondCall (memory : Allocator) (n : UInt64) : ReceiveCall where
  buffer := if memory.grants 1 (16 + n).toNat then some (16 + n).toNat else none
  offset := 16
  length := n.toNat

/-- The second call is made, unless the function looks at a null pointer. -/
theorem receivePayload_call (receiver : Receiver) (memory : Allocator) (header : List UInt8)
    (n : UInt64) (arrivals : List Arrival) :
    (receivePayload receiver memory header n arrivals).call =
      if receiver.checksRealloc ∧ ¬ memory.grants 1 (16 + n).toNat then none
      else some (secondCall memory n) := by
  unfold receivePayload
  by_cases hstop : receiver.checksRealloc = true ∧ ¬ memory.grants 1 (16 + n).toNat = true
  · simp only [if_pos hstop]
  simp only [if_neg hstop]
  by_cases hgrant : ¬ memory.grants 1 (16 + n).toNat = true
  · rw [if_pos hgrant]
    rfl
  rw [if_neg hgrant]
  rcases recvAll n.toNat arrivals with _ | ⟨_ | _, _⟩
  · rfl
  · rfl
  · rfl

/-- The second call of `recv_all` is made behind an accepted header, unless the
    function looked at a null pointer. -/
theorem receiveCommand_call_iff (receiver : Receiver) (order : ByteOrder) (memory : Allocator)
    (heap : Nat → UInt8) (arrivals : List Arrival) (call : ReceiveCall) :
    (receiveCommand receiver order memory heap arrivals).call = some call ↔
      ∃ n rest, memory.grants 0 sizeofCommandHeader = true ∧
        Announces receiver arrivals n rest ∧
        ¬ (receiver.checksRealloc ∧ ¬ memory.grants 1 (16 + n).toNat) ∧
        call = secondCall memory n := by
  constructor
  · intro h
    rcases receiveCommand_or_announces receiver order memory heap arrivals with
      ⟨_, hend⟩ | ⟨hgrant, n, rest, hann⟩
    · rw [hend] at h
      exact absurd h (by simp only [reduceCtorEq, not_false_eq_true])
    · rw [receiveCommand_of_announces receiver order memory heap arrivals rest n hgrant hann,
        receivePayload_call] at h
      by_cases hstop : receiver.checksRealloc = true ∧ ¬ memory.grants 1 (16 + n).toNat = true
      · rw [if_pos hstop] at h
        exact absurd h (by simp only [reduceCtorEq, not_false_eq_true])
      · rw [if_neg hstop] at h
        exact ⟨n, rest, hgrant, hann, hstop, (Option.some.inj h).symm⟩
  · rintro ⟨n, rest, hgrant, hann, hgo, rfl⟩
    rw [receiveCommand_of_announces receiver order memory heap arrivals rest n hgrant hann,
      receivePayload_call, if_neg hgo]

/-- The call stays inside exactly if it is given an object and the sum does not
    wrap. -/
theorem secondCall_inside_iff (memory : Allocator) (n : UInt64) :
    (secondCall memory n).Inside ↔
      memory.grants 1 (16 + n).toNat = true ∧ 16 + n.toNat < 2 ^ 64 := by
  have hn : n.toNat < 2 ^ 64 := n.toNat_lt
  have hsum : (16 + n).toNat = (16 + n.toNat) % 2 ^ 64 := UInt64.toNat_add 16 n
  by_cases hgrant : memory.grants 1 (16 + n).toNat = true
  · have hbuffer : (secondCall memory n).buffer = some (16 + n).toNat := if_pos hgrant
    rw [ReceiveCall.Inside, hbuffer]
    simp only [Option.some.injEq, exists_eq_left', hgrant, true_and]
    change 16 + n.toNat ≤ (16 + n).toNat ↔ _
    omega
  · have hbuffer : (secondCall memory n).buffer = none := if_neg hgrant
    rw [ReceiveCall.Inside, hbuffer]
    simp only [reduceCtorEq, false_and, exists_false, hgrant]

/-- Whatever the second call of `recv_all` is given lies inside its buffer,
    exactly if every header that is accepted announces a length whose sum does
    not wrap, or is refused its memory by a function that looks. -/
theorem receiveCommand_inside_iff (receiver : Receiver) (order : ByteOrder) (memory : Allocator)
    (heap : Nat → UInt8) (arrivals : List Arrival) :
    (∀ call, (receiveCommand receiver order memory heap arrivals).call = some call →
      call.Inside) ↔
    (memory.grants 0 sizeofCommandHeader = true → ∀ n rest, Announces receiver arrivals n rest →
      if memory.grants 1 (16 + n).toNat then 16 + n.toNat < 2 ^ 64
      else receiver.checksRealloc = true) := by
  constructor
  · intro h hgrant n rest hann
    by_cases hreal : memory.grants 1 (16 + n).toNat = true
    · rw [if_pos hreal]
      have hin := h _ ((receiveCommand_call_iff receiver order memory heap arrivals _).mpr
        ⟨n, rest, hgrant, hann, fun hstop => hstop.2 hreal, rfl⟩)
      exact ((secondCall_inside_iff _ n).mp hin).2
    · rw [if_neg hreal]
      by_contra hlook
      -- Nothing stops the function from using the null pointer.
      have hin := h _ ((receiveCommand_call_iff receiver order memory heap arrivals _).mpr
        ⟨n, rest, hgrant, hann, fun hstop => hlook hstop.1, rfl⟩)
      exact hreal ((secondCall_inside_iff _ n).mp hin).1
  · intro h call hcall
    rcases (receiveCommand_call_iff receiver order memory heap arrivals call).mp hcall with
      ⟨n, rest, hgrant, hann, hgo, rfl⟩
    have hcond := h hgrant n rest hann
    by_cases hreal : memory.grants 1 (16 + n).toNat = true
    · rw [if_pos hreal] at hcond
      exact (secondCall_inside_iff _ n).mpr ⟨hreal, hcond⟩
    · rw [if_neg hreal] at hcond
      exact absurd ⟨hcond, hreal⟩ hgo

/-- The handler of consensus requests receives as the general sequence does. It
    has no outcome if the second call of `recv_all` does not stay inside. -/
theorem receivePeerBlockchain_eq (order : ByteOrder) (r : Request) :
    receivePeerBlockchain order r =
      let received := receiveCommand .consensus order (r.memory .receive) (r.heap .receive)
        r.arrivals
      if ∃ call, received.call = some call ∧ ¬ call.Inside then none
      else received.outcome.map fun result =>
        result.bind fun command => decodePeerBlockchain order r command.recvBuf := by
  unfold receivePeerBlockchain receiveCommand
  have hnone : ∀ (outcome : Option (Except Interruption ReceivedCommand)),
      ¬ ∃ call, (⟨outcome, none⟩ : Received).call = some call ∧ ¬ call.Inside := by
    rintro outcome ⟨_, h, _⟩
    exact absurd h (by simp only [reduceCtorEq, not_false_eq_true])
  by_cases hgrant : (r.memory .receive).grants 0 sizeofCommandHeader = true
  · rw [if_neg (not_not.mpr hgrant), if_neg (not_not.mpr hgrant)]
    rcases recvAll sizeofCommandHeader r.arrivals with _ | ⟨code | header, rest⟩
    · exact (if_neg (hnone _)).symm
    · exact (if_neg (hnone _)).symm
    simp only
    rcases (commandHeaderDeserialize order (.ofBytes header (r.heap .receive)) .start).1 with
      code | commandHeader
    · exact (if_neg (hnone _)).symm
    simp only
    by_cases hcommand : commandHeader.command = COMMAND_SEND_BLOCKCHAIN
    · have hexpected : ¬ commandHeader.command ≠ Receiver.command .consensus :=
        not_not.mpr hcommand
      have hlook : ¬ (Receiver.checksRealloc .consensus = true ∧
          ¬ (r.memory .receive).grants 1 (16 + commandHeader.commandLen).toNat = true) :=
        fun h => Bool.false_ne_true h.1
      rw [if_neg (not_not.mpr hcommand), if_neg hexpected, receivePayload_call, if_neg hlook]
      simp only [Option.some.injEq, exists_eq_left', UInt64.lt_iff_toNat_lt]
      have hn : commandHeader.commandLen.toNat < 2 ^ 64 := commandHeader.commandLen.toNat_lt
      have hsum : (16 + commandHeader.commandLen).toNat =
          (16 + commandHeader.commandLen.toNat) % 2 ^ 64 := UInt64.toNat_add 16 _
      have hiff := secondCall_inside_iff (r.memory .receive) commandHeader.commandLen
      by_cases hin : (secondCall (r.memory .receive) commandHeader.commandLen).Inside
      · rcases hiff.mp hin with ⟨hreal, hfit⟩
        rw [if_neg (by rw [not_or, not_not]; exact ⟨by omega, hreal⟩), if_neg (not_not.mpr hin)]
        unfold receivePayload
        simp only [hreal, not_true_eq_false, if_false, if_true]
        rcases recvAll commandHeader.commandLen.toNat rest with _ | ⟨code | payload, rest'⟩
        · rfl
        · rfl
        · rfl
      -- The sum wraps or the pointer is null, and neither handler goes on.
      · rw [if_pos hin, if_pos]
        by_contra hc
        rw [not_or, not_not] at hc
        exact hin (hiff.mpr ⟨hc.2, by omega⟩)
    · have hexpected : commandHeader.command ≠ Receiver.command .consensus := hcommand
      rw [if_pos hcommand, if_pos hexpected]
      exact (if_neg (hnone _)).symm
  · rw [if_pos hgrant, if_pos hgrant]
    exact (if_neg (hnone _)).symm

/-- A header that announces the largest length there is. -/
def largestAnnounced (receiver : Receiver) : List Arrival :=
  [.bytes ⟨headerImage receiver.command 0xffffffffffffffff, by
    rw [headerImage_length]
    decide⟩]

/-- With every request granted, that header makes a function write behind its
    buffer. -/
theorem largestAnnounced_call (receiver : Receiver) : ∃ call,
    (receiveCommand receiver .little .generous (fun _ => 0) (largestAnnounced receiver)).call =
      some call ∧ ¬ call.Inside := by
  have hgrant : Allocator.generous.grants 1 (16 + (0xffffffffffffffff : UInt64)).toNat = true := by
    decide
  have hann : Announces receiver (largestAnnounced receiver) 0xffffffffffffffff [] := by
    cases receiver with
    | consensus => rfl
    | bootstrap => rfl
    | discovery => rfl
  refine ⟨_, (receiveCommand_call_iff receiver .little .generous _ _ _).mpr
    ⟨0xffffffffffffffff, [], by decide, hann, fun hstop => hstop.2 hgrant, rfl⟩, ?_⟩
  intro hin
  have hfit := ((secondCall_inside_iff _ _).mp hin).2
  exact absurd hfit (by decide)

/-- None of the three functions stays inside for every header. -/
theorem largestAnnounced_outside :
    ¬ ∀ (order : ByteOrder) (memory : Allocator) (heap : Nat → UInt8) (arrivals : List Arrival)
      (receiver : Receiver) (call : ReceiveCall),
      (receiveCommand receiver order memory heap arrivals).call = some call → call.Inside := by
  intro h
  rcases largestAnnounced_call .discovery with ⟨call, hcall, hout⟩
  exact hout (h .little .generous _ _ .discovery call hcall)

end LeoCoin
