import LeoCoin.Theory.ReceiveBounds
import LeoCoin.Theory.Receiving

/-!
# Receipt

What one side receives of what the other side sends.

A connection carries bytes in order. It may be cut anywhere, for the calls of
`send` as for the calls of `recv`, and it may end early. So all that is known
about the arrivals is that their content begins what was sent, and what was
sent begins the frame that was to be sent. That is enough: a function that has
received a command at all has received the frame, since the length in the
header of a frame is that of its payload.

## Main definitions

* `content`: The bytes that arrive before an error.

## Theorems

* `recvAll_content`: What is received comes off the front of the content.
* `sendAll_sent`: What is sent begins what was to be sent.
* `receiveCommand_ok`: What a function receives.
* `received_frame`: A command received of a frame is the frame.
-/

namespace LeoCoin

/-- The bytes that arrive before an error, however they are cut. -/
def content : List Arrival → List UInt8
  | [] => []
  | .failed :: _ => []
  | .bytes chunk :: arrivals => chunk.val ++ content arrivals

/-- Bytes that are received come off the front of the content. -/
theorem recvAll_content (len : Nat) (arrivals rest : List Arrival) (bs : List UInt8)
    (h : recvAll len arrivals = some (.ok bs, rest)) : content arrivals = bs ++ content rest := by
  induction arrivals generalizing len bs rest with
  | nil =>
      cases len with
      | zero =>
          simp only [recvAll, Option.some.injEq, Prod.mk.injEq, Except.ok.injEq] at h
          rw [← h.1, ← h.2, List.nil_append]
      | succ n => simp only [recvAll, reduceCtorEq] at h
  | cons a arrivals ih =>
      rcases len with _ | n
      · simp only [recvAll, Option.some.injEq, Prod.mk.injEq, Except.ok.injEq] at h
        rw [← h.1, ← h.2, List.nil_append]
      cases a with
      | failed => simp only [recvAll, Option.some.injEq, Prod.mk.injEq, reduceCtorEq,
          false_and] at h
      | bytes chunk =>
          by_cases hlong : n + 1 < chunk.val.length
          · -- The chunk is cut, and its rest stays in front.
            rw [recvAll, if_pos hlong, Option.some.injEq, Prod.mk.injEq, Except.ok.injEq] at h
            rw [← h.1, ← h.2, content, content, ← List.append_assoc]
            exact congrArg (· ++ content arrivals) (List.take_append_drop (n + 1) chunk.val).symm
          · rw [recvAll_step _ _ _ (Nat.succ_pos n) (Nat.not_lt.mp hlong), behind,
              Option.map_eq_some_iff] at h
            rcases h with ⟨⟨code | tail, rest'⟩, hrec, heq⟩
            · simp only [Except.map, Prod.mk.injEq, reduceCtorEq, false_and] at heq
            · simp only [Except.map, Prod.mk.injEq, Except.ok.injEq] at heq
              rw [content, ih _ _ _ hrec, ← heq.1, ← heq.2, List.append_assoc]

/-- What is sent begins what was to be sent. -/
theorem sendAll_sent (acceptances : List Acceptance) (bs : List UInt8) :
    (sendAll bs acceptances).2 <+: bs := by
  induction acceptances generalizing bs with
  | nil =>
      cases bs with
      | nil => exact List.nil_prefix
      | cons b bs => exact List.nil_prefix
  | cons a acceptances ih =>
      cases bs with
      | nil => exact List.nil_prefix
      | cons b bs =>
          cases a with
          | failed => exact List.nil_prefix
          | accepted n =>
              have hrest := (List.prefix_append_right_inj ((b :: bs).take n)).mpr
                (ih ((b :: bs).drop n))
              rwa [List.take_append_drop] at hrest

/-- A function that receives a command receives a header of the command it
    expects, and a payload of the announced length. -/
theorem receiveCommand_ok (receiver : Receiver) (order : ByteOrder) (memory : Allocator)
    (heap : Nat → UInt8) (arrivals : List Arrival) (received : ReceivedCommand)
    (h : (receiveCommand receiver order memory heap arrivals).outcome = some (.ok received)) :
    ∃ n payload, received = ⟨headerImage receiver.command n ++ payload, 16 + n⟩ ∧
      payload.length = n.toNat ∧
      headerImage receiver.command n ++ payload <+: content arrivals := by
  rcases receiveCommand_or_announces receiver order memory heap arrivals with
    ⟨interruption, hstop⟩ | ⟨hgrant, n, rest, hann⟩
  · rw [hstop] at h
    simp only [Option.some.injEq, reduceCtorEq] at h
  rw [receiveCommand_of_announces receiver order memory heap arrivals rest n hgrant hann] at h
  unfold receivePayload at h
  simp only at h
  by_cases hstop : receiver.checksRealloc = true ∧ ¬ memory.grants 1 (16 + n).toNat = true
  · rw [if_pos hstop] at h
    simp only [Option.some.injEq, reduceCtorEq] at h
  rw [if_neg hstop] at h
  by_cases hreal : memory.grants 1 (16 + n).toNat = true
  · rw [if_neg (not_not.mpr hreal)] at h
    rcases hrecv : recvAll n.toNat rest with _ | ⟨code | payload, rest'⟩
    · simp only [hrecv, Option.some.injEq, reduceCtorEq] at h
    · simp only [hrecv, Option.some.injEq, reduceCtorEq] at h
    · simp only [hrecv, Option.some.injEq, Except.ok.injEq] at h
      refine ⟨n, payload, h.symm, recvAll_length _ _ _ _ hrecv, ?_⟩
      rw [recvAll_content _ _ _ _ hann, recvAll_content _ _ _ _ hrecv, ← List.append_assoc]
      exact List.prefix_append _ _
  · rw [if_pos hreal] at h
    simp only [reduceCtorEq] at h

/-- If what arrives begins a frame, then a command that is received is the
    frame. -/
theorem received_frame (receiver : Receiver) (order : ByteOrder) (memory : Allocator)
    (heap : Nat → UInt8) (arrivals : List Arrival) (received : ReceivedCommand)
    (code : UInt32) (n : UInt64) (payload : List UInt8) (hlen : payload.length = n.toNat)
    (hcontent : content arrivals <+: headerImage code n ++ payload)
    (h : (receiveCommand receiver order memory heap arrivals).outcome = some (.ok received)) :
    code = receiver.command ∧ received = ⟨headerImage code n ++ payload, 16 + n⟩ := by
  rcases receiveCommand_ok receiver order memory heap arrivals received h with
    ⟨n', payload', rfl, hlen', hfront⟩
  rcases hfront.trans hcontent with ⟨more, hmore⟩
  rw [List.append_assoc] at hmore
  -- The headers agree, so the announced lengths do, and then the payloads.
  rcases List.append_inj hmore (by rw [headerImage_length, headerImage_length]) with
    ⟨hheader, hpayload⟩
  rcases headerImage_inj _ _ _ _ hheader with ⟨hcode, rfl⟩
  have hsame := (List.append_inj (hpayload.trans (List.append_nil payload).symm)
    (hlen'.trans hlen.symm)).1
  rw [hcode, hsame]
  exact ⟨rfl, rfl⟩

end LeoCoin
