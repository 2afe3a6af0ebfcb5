import LeoCoin.Theory.Commands

/-!
# Declared Lengths

How the length a frame announces is checked.

The decoders of a chain and of a list of peers compare the size of the buffer
with the announced length plus the 24 bytes in front of the data. The sum is
computed on 64 bits. It is exact for lengths below `2 ^ 64 - 24`, and then the
comparison is the intended one: a length that does not fit is refused before
anything is allocated or copied, and one that fits leads to a copy inside the
buffer. From `2 ^ 64 - 24` on the sum wraps to less than 24 and passes, and the
decoder goes on to request as many bytes as were announced. No such request is
granted, so it ends there, with another code.

## Main definitions

* `LengthChecked`: The announced length is checked as intended.
* `wrappingLength`: A frame whose length makes the sum wrap.

## Theorems

* `dataCommandDeserialize_ends`: What a run ends with if the sum is exact.
* `dataCommand_lengthChecked_iff`: The condition is exact, at any code.
* `lengthChecked_map_iff`: The check does not depend on names.
* `declaredLength_iff`: The condition is exact for both decoders.
-/

namespace LeoCoin

open Decoder

/-- The length announced behind the header is compared with the bytes behind
    it: what does not fit is refused without a request for memory and without
    reading data, and what fits is returned with every read inside. -/
structure LengthChecked {α : Type} (decode : Allocator → Decoder ReturnCode α)
    (data : α → List UInt8) (b : Buffer) : Prop where
  refused : ∀ alloc, (decode alloc .start).1 = .error .failureBufferTooSmall ↔
    (fieldAt b 16).toNat > b.size - 24
  untouched : ∀ alloc, (fieldAt b 16).toNat > b.size - 24 →
    (decode alloc .start).2.calls = 0 ∧ ∀ i ∈ (decode alloc .start).2.reads, i < 24
  accepted : ∀ alloc, (fieldAt b 16).toNat ≤ b.size - 24 →
    alloc.grants 0 (fieldAt b 16).toNat = true →
    ∃ command, (decode alloc .start).1 = .ok command ∧
      data command = slice b.byte 24 (fieldAt b 16).toNat
  inside : ∀ alloc, (fieldAt b 16).toNat ≤ b.size - 24 →
    ∀ i ∈ (decode alloc .start).2.reads, i < b.size

/-- A frame with the right header is refused as too short only if the wrapped
    sum exceeds the size. -/
theorem lt_sum_of_refused (code : UInt32) (order : ByteOrder) (alloc : Allocator) (b : Buffer)
    (h24 : 24 ≤ b.size) (hfront : b.bytesAt 0 4 = COMMAND_PREFIX)
    (hcode : (commandHeaderAt b).command = code)
    (h : (dataCommandDeserialize code order alloc b .start).1 = .error .failureBufferTooSmall) :
    b.size < (24 + fieldAt b 16).toNat := by
  rcases wp_error (wp_dataCommandDeserialize code order alloc b) h with
    ⟨hlt, _⟩ | ⟨hne, _⟩ | ⟨hne, _⟩ | ⟨hlt, _⟩ | ⟨_, _, he, _⟩
  · omega
  · exact absurd hfront hne
  · exact absurd hcode hne
  · exact hlt
  · exact absurd he (by simp only [reduceCtorEq, not_false_eq_true])

/-- What a run ends with behind the right header, if the sum does not wrap: the
    length does not fit, the memory is refused, or the command is returned. -/
theorem dataCommandDeserialize_ends (code : UInt32) (order : ByteOrder) (alloc : Allocator)
    (b : Buffer) (h24 : 24 ≤ b.size) (hfront : b.bytesAt 0 4 = COMMAND_PREFIX)
    (hcode : (commandHeaderAt b).command = code)
    (hexact : (24 + fieldAt b 16).toNat = 24 + (fieldAt b 16).toNat) :
    let run := dataCommandDeserialize code order alloc b .start
    (b.size < 24 + (fieldAt b 16).toNat ∧ run.1 = .error .failureBufferTooSmall ∧
        run.2.pos = 24 ∧ run.2.calls = 0) ∨
      (24 + (fieldAt b 16).toNat ≤ b.size ∧ run.1 = .error .failureCouldNotMalloc ∧
        run.2.pos = 24 ∧ ¬ alloc.grants 0 (fieldAt b 16).toNat = true) ∨
      (24 + (fieldAt b 16).toNat ≤ b.size ∧ run.1 = .ok (dataCommandAt b) ∧
        run.2.pos = 24 + (fieldAt b 16).toNat) := by
  intro run
  have hspec := wp_dataCommandDeserialize code order alloc b
  rcases hrun : run.1 with e | command
  · rcases wp_error hspec hrun with
      ⟨hlt, _⟩ | ⟨hne, _⟩ | ⟨hne, _⟩ | ⟨hlt, rfl, hpos, hcalls⟩ | ⟨hg, hfit, rfl, hpos⟩
    · omega
    · exact absurd hfront hne
    · exact absurd hcode hne
    · exact Or.inl ⟨by omega, rfl, hpos, hcalls⟩
    · exact Or.inr (Or.inl ⟨by omega, rfl, hpos, hg⟩)
  · rcases wp_ok hspec hrun with ⟨rfl, _, _, hfit, hpos, _⟩
    exact Or.inr (Or.inr ⟨hfit, rfl, hpos⟩)

/-- A length is checked as intended exactly if the sum does not wrap. -/
theorem dataCommand_lengthChecked_iff (code : UInt32) (order : ByteOrder) (b : Buffer)
    (hsize : b.size < 2 ^ 64) (h24 : 24 ≤ b.size) (hfront : b.bytesAt 0 4 = COMMAND_PREFIX)
    (hcode : (commandHeaderAt b).command = code) :
    LengthChecked (fun alloc => dataCommandDeserialize code order alloc b) DataCommand.data b ↔
      (fieldAt b 16).toNat < 2 ^ 64 - 24 := by
  have hn64 : (fieldAt b 16).toNat < 2 ^ 64 := (fieldAt b 16).toNat_lt
  have hsum : (24 + fieldAt b 16).toNat = (24 + (fieldAt b 16).toNat) % 2 ^ 64 :=
    UInt64.toNat_add 24 _
  constructor
  · intro h
    by_contra hc
    -- A length from there on does not fit, yet the wrapped sum does.
    have hrun := (h.refused .generous).mpr (by omega)
    have hlt := lt_sum_of_refused code order .generous b h24 hfront hcode hrun
    omega
  · intro hn
    have hexact : (24 + fieldAt b 16).toNat = 24 + (fieldAt b 16).toNat := by omega
    have hend := fun alloc =>
      dataCommandDeserialize_ends code order alloc b h24 hfront hcode hexact
    constructor
    · intro alloc
      rcases hend alloc with ⟨hlt, hrun, _⟩ | ⟨hfit, hrun, _⟩ | ⟨hfit, hrun, _⟩
      · exact iff_of_true hrun (by omega)
      · refine iff_of_false ?_ (by omega)
        rw [hrun]
        simp only [Except.error.injEq, reduceCtorEq, not_false_eq_true]
      · refine iff_of_false ?_ (by omega)
        rw [hrun]
        simp only [reduceCtorEq, not_false_eq_true]
    · intro alloc hlong
      rcases hend alloc with ⟨_, _, hpos, hcalls⟩ | ⟨hfit, _⟩ | ⟨hfit, _⟩
      · exact ⟨hcalls, (Cursor.forall_reads_lt_iff _ 24).mpr (Nat.le_of_eq hpos)⟩
      · omega
      · omega
    · intro alloc hle hgrant
      rcases hend alloc with ⟨hlt, _⟩ | ⟨_, _, _, hg⟩ | ⟨_, hrun, _⟩
      · omega
      · exact absurd hgrant hg
      · exact ⟨_, hrun, rfl⟩
    · intro alloc hle
      refine (Cursor.forall_reads_lt_iff _ b.size).mpr ?_
      rcases hend alloc with ⟨_, _, hpos, _⟩ | ⟨_, _, hpos, _⟩ | ⟨hfit, _, hpos⟩
      · omega
      · omega
      · omega

/-- A decoder that returns the same data under another name makes the same
    checks. -/
theorem lengthChecked_map_iff {α β : Type} (decode : Allocator → Decoder ReturnCode α)
    (decode' : Allocator → Decoder ReturnCode β) (f : α → β) (data : α → List UInt8)
    (data' : β → List UInt8) (b : Buffer) (hdata : ∀ x, data' (f x) = data x)
    (hmap : ∀ alloc s, decode' alloc s = ((decode alloc s).1.map f, (decode alloc s).2)) :
    LengthChecked decode' data' b ↔ LengthChecked decode data b := by
  have hcursor : ∀ alloc, (decode' alloc .start).2 = (decode alloc .start).2 := by
    intro alloc
    rw [hmap]
  have herror : ∀ alloc, (decode' alloc .start).1 = .error .failureBufferTooSmall ↔
      (decode alloc .start).1 = .error .failureBufferTooSmall := by
    intro alloc
    rw [hmap]
    rcases (decode alloc .start).1 with e | x
    · simp only [Except.map, Except.error.injEq]
    · simp only [Except.map, reduceCtorEq]
  have hok : ∀ alloc, (∃ c, (decode' alloc .start).1 = .ok c ∧
        data' c = slice b.byte 24 (fieldAt b 16).toNat) ↔
      ∃ c, (decode alloc .start).1 = .ok c ∧
        data c = slice b.byte 24 (fieldAt b 16).toNat := by
    intro alloc
    rw [hmap]
    rcases (decode alloc .start).1 with e | x
    · simp only [Except.map, reduceCtorEq, false_and, exists_false]
    · simp only [Except.map, Except.ok.injEq, exists_eq_left', hdata]
  constructor
  · intro h
    exact
      { refused := fun alloc => (herror alloc).symm.trans (h.refused alloc)
        untouched := fun alloc => hcursor alloc ▸ h.untouched alloc
        accepted := fun alloc hle hgrant => (hok alloc).mp (h.accepted alloc hle hgrant)
        inside := fun alloc => hcursor alloc ▸ h.inside alloc }
  · intro h
    exact
      { refused := fun alloc => (herror alloc).trans (h.refused alloc)
        untouched := fun alloc => (hcursor alloc).symm ▸ h.untouched alloc
        accepted := fun alloc hle hgrant => (hok alloc).mpr (h.accepted alloc hle hgrant)
        inside := fun alloc => (hcursor alloc).symm ▸ h.inside alloc }

/-- Both decoders check an announced length as intended exactly if it is less
    than `2 ^ 64 - 24`. -/
theorem declaredLength_iff (order : ByteOrder) (b : Buffer) (hsize : b.size < 2 ^ 64)
    (h24 : 24 ≤ b.size) (hfront : b.bytesAt 0 4 = COMMAND_PREFIX) :
    ((commandHeaderAt b).command = COMMAND_SEND_PEER_LIST →
      (LengthChecked (fun alloc => commandSendPeerListDeserialize order alloc b)
        DataCommand.data b ↔ (fieldAt b 16).toNat < 2 ^ 64 - 24)) ∧
    ((commandHeaderAt b).command = COMMAND_SEND_BLOCKCHAIN →
      (LengthChecked (fun alloc => commandSendBlockchainDeserialize order alloc b)
        CommandSendBlockchain.blockchainData b ↔ (fieldAt b 16).toNat < 2 ^ 64 - 24)) := by
  constructor
  · intro hcode
    exact dataCommand_lengthChecked_iff _ order b hsize h24 hfront hcode
  · intro hcode
    refine (lengthChecked_map_iff _ _ DataCommand.toSendBlockchain DataCommand.data _ b
      (fun _ => rfl) ?_).trans (dataCommand_lengthChecked_iff _ order b hsize h24 hfront hcode)
    intro alloc s
    exact commandSendBlockchainDeserialize_eq order alloc b s

/-- A frame of 24 bytes with the largest length there is. -/
def wrappingLength (code : UInt8) : Buffer :=
  .ofBytes ([0x4c, 0x45, 0x4f, 0x00, 0, 0, 0, code] ++ List.replicate 8 0 ++
    List.replicate 8 0xff) fun _ => 0

theorem declaredLength_iff_sample :
    ¬ LengthChecked (fun alloc => commandSendPeerListDeserialize .little alloc (wrappingLength 3))
        DataCommand.data (wrappingLength 3) ∧
      ¬ LengthChecked
        (fun alloc => commandSendBlockchainDeserialize .big alloc (wrappingLength 4))
        CommandSendBlockchain.blockchainData (wrappingLength 4) := by
  have hlong : ¬ ((fieldAt (wrappingLength 3) 16).toNat < 2 ^ 64 - 24) ∧
    ¬ ((fieldAt (wrappingLength 4) 16).toNat < 2 ^ 64 - 24) := by decide
  constructor
  · intro h
    exact hlong.1 (((declaredLength_iff .little (wrappingLength 3) (by decide) (by decide)
      (by decide)).1 (by decide)).mp h)
  · intro h
    exact hlong.2 (((declaredLength_iff .big (wrappingLength 4) (by decide) (by decide)
      (by decide)).2 (by decide)).mp h)

/-- For that frame the decoder does not say that the buffer is too small. -/
theorem wrappingLength_notRefused :
    ¬ ∀ (order : ByteOrder) (alloc : Allocator) (b : Buffer), b.size < 2 ^ 64 → 24 ≤ b.size →
      b.bytesAt 0 4 = COMMAND_PREFIX → (commandHeaderAt b).command = COMMAND_SEND_PEER_LIST →
      ((commandSendPeerListDeserialize order alloc b .start).1 = .error .failureBufferTooSmall ↔
        (fieldAt b 16).toNat > b.size - 24) := by
  intro h
  have hrun := (h .little .generous (wrappingLength 3) (by decide) (by decide) (by decide)
    (by decide)).mpr (by decide)
  -- The sum wraps to 23, and the buffer has 24 bytes.
  have hlt := lt_sum_of_refused _ .little .generous (wrappingLength 3) (by decide) (by decide)
    (by decide) hrun
  exact absurd hlt (by decide)

end LeoCoin
