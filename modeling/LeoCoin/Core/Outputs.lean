import LeoCoin.Core.PeerDiscovery

/-!
# Outputs

What the decoders do to the object behind their output pointer.

Every decoder checks its two pointers, decodes into an object of its own, and
as its last step gives the caller what it decoded: the decoders of commands
copy the object, and the decoders of chains and of lists store the pointer. An
early return leaves the caller's object as it was. `callDecoder` is this
wrapping, and each decoder keeps its name in it.

## Main definitions

* `callDecoder`: A decoder with its pointers.
* `callBlockchainDeserialize`, `callPeerInfoListDeserialize`,
  `callCommandHeaderDeserialize`, `callCommandRegisterPeerDeserialize`,
  `callCommandSendPeerListDeserialize`, `callCommandSendBlockchainDeserialize`:
  The decoders.

## Theorems

* `callDecoder_some`, `callDecoder_refused`: A call by what the decoder returns.
* `callDecoder_ok`: A call that succeeds leaves the value in the output.
* `callDecoder_error`: A call that fails leaves the output as it was.
-/

namespace LeoCoin

open Decoder

/-- A call of a decoder with an output object and a buffer, either of which may
    be missing: the return code, and the output object afterwards. -/
def callDecoder {α β : Type} (decoder : Buffer → Decoder ReturnCode β) (write : β → α)
    (output : Option α) (buffer : Option Buffer) : Except ReturnCode Unit × Option α :=
  match output, buffer with
  | some old, some buffer =>
    match (decoder buffer .start).1 with
    | .error code => (.error code, some old)
    | .ok value => (.ok (), some (write value))
  | _, _ => (.error .failureInvalidInput, output)

/-- The output is the pointer to a chain, which may be null. -/
def callBlockchainDeserialize (order : ByteOrder) (alloc : Allocator) (now : Int64) :
    Option (Option Blockchain) → Option Buffer →
      Except ReturnCode Unit × Option (Option Blockchain) :=
  callDecoder (blockchainDeserialize order alloc now) some

def callPeerInfoListDeserialize (order : ByteOrder) (alloc : Allocator) :
    Option (Option (List PeerInfo)) → Option Buffer →
      Except ReturnCode Unit × Option (Option (List PeerInfo)) :=
  callDecoder (peerInfoListDeserialize order alloc) some

def callCommandHeaderDeserialize (order : ByteOrder) :
    Option CommandHeader → Option Buffer → Except ReturnCode Unit × Option CommandHeader :=
  callDecoder (commandHeaderDeserialize order) id

def callCommandRegisterPeerDeserialize (order : ByteOrder) :
    Option CommandRegisterPeer → Option Buffer →
      Except ReturnCode Unit × Option CommandRegisterPeer :=
  callDecoder (commandRegisterPeerDeserialize order) id

def callCommandSendPeerListDeserialize (order : ByteOrder) (alloc : Allocator) :
    Option CommandSendPeerList → Option Buffer →
      Except ReturnCode Unit × Option CommandSendPeerList :=
  callDecoder (commandSendPeerListDeserialize order alloc) id

def callCommandSendBlockchainDeserialize (order : ByteOrder) (alloc : Allocator) :
    Option CommandSendBlockchain → Option Buffer →
      Except ReturnCode Unit × Option CommandSendBlockchain :=
  callDecoder (commandSendBlockchainDeserialize order alloc) id

section Calls

variable {α β : Type} (decoder : Buffer → Decoder ReturnCode β) (write : β → α)

theorem callDecoder_some (old : α) (b : Buffer) (value : β)
    (h : (decoder b .start).1 = .ok value) :
    callDecoder decoder write (some old) (some b) = (.ok (), some (write value)) := by
  simp only [callDecoder, h]

theorem callDecoder_refused (old : α) (b : Buffer) (code : ReturnCode)
    (h : (decoder b .start).1 = .error code) :
    callDecoder decoder write (some old) (some b) = (.error code, some old) := by
  simp only [callDecoder, h]

/-- A call that succeeds has decoded its buffer into the output. -/
theorem callDecoder_ok (old : α) (b : Buffer) (output : Option α)
    (h : callDecoder decoder write (some old) (some b) = (.ok (), output)) :
    ∃ value, (decoder b .start).1 = .ok value ∧ output = some (write value) := by
  rcases hrun : (decoder b .start).1 with code | value
  · rw [callDecoder_refused decoder write old b code hrun] at h
    exact absurd (congrArg Prod.fst h) (by simp only [reduceCtorEq, not_false_eq_true])
  · rw [callDecoder_some decoder write old b value hrun] at h
    exact ⟨value, rfl, (congrArg Prod.snd h).symm⟩

/-- A call that fails leaves the output as it was. -/
theorem callDecoder_error (output : Option α) (buffer : Option Buffer)
    (h : (callDecoder decoder write output buffer).1 ≠ .ok ()) :
    (callDecoder decoder write output buffer).2 = output := by
  cases output with
  | none => rfl
  | some old =>
      cases buffer with
      | none => rfl
      | some b =>
          rcases hrun : (decoder b .start).1 with code | value
          · rw [callDecoder_refused decoder write old b code hrun]
          · exact absurd (by rw [callDecoder_some decoder write old b value hrun]) h

end Calls

end LeoCoin
