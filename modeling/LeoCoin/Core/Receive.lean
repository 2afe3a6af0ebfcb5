import LeoCoin.Core.Networking

/-!
# Receive

How a command arrives, in the three functions that wait for one.

All three receive a header, look at its command, enlarge the buffer by the
length the header announces, and receive as many bytes behind the header. They
differ in the command they expect and in whether they look at what `realloc`
returns. The sum passed to `realloc` is a 64-bit integer and may wrap, and the
length passed to `recv_all` is the announced one.

So the second call of `recv_all` is part of the result: the object it is given,
and where in it and how far it may write. Nothing is said here about what it
writes behind that object. A null pointer that is used leaves the function
without an outcome.

## Main definitions

* `Interruption`: How a handler ends without success.
* `Receiver`: The three functions.
* `ReceiveCall`: The second call of `recv_all`.
* `Received`: What a receiver ends with.
* `receivePayload`, `receiveCommand`: Receiving a command.
-/

namespace LeoCoin

/-- How a handler ends if it does not return `SUCCESS`: with a failure, or in
    a call that does not return. -/
inductive Interruption where
  | failed (code : ReturnCode)
  | blocked
  deriving DecidableEq, Repr

/-- The functions that receive a command: `handle_one_consensus_request`,
    `handle_one_peer_discovery_request` and `discover_peers_once`. -/
inductive Receiver where
  | consensus
  | bootstrap
  | discovery
  deriving DecidableEq, Repr

/-- The command a function accepts. -/
def Receiver.command : Receiver → UInt32
  | consensus => COMMAND_SEND_BLOCKCHAIN
  | bootstrap => COMMAND_REGISTER_PEER
  | discovery => COMMAND_SEND_PEER_LIST

/-- Whether a function compares the result of `realloc` with a null pointer. -/
def Receiver.checksRealloc : Receiver → Bool
  | consensus => false
  | bootstrap => false
  | discovery => true

/-- A call of `recv_all`: the size of the object `realloc` returned, or `none`
    for a null pointer, the offset written at, and the number of bytes. -/
structure ReceiveCall where
  buffer : Option Nat
  offset : Nat
  length : Nat

/-- The bytes written by a call lie in its buffer. -/
def ReceiveCall.Inside (call : ReceiveCall) : Prop :=
  ∃ size, call.buffer = some size ∧ call.offset + call.length ≤ size

instance (call : ReceiveCall) : Decidable call.Inside :=
  match hbuffer : call.buffer with
  | none => isFalse fun ⟨_, h, _⟩ => nomatch hbuffer.symm.trans h
  | some size =>
    decidable_of_iff (call.offset + call.length ≤ size)
      ⟨fun h => ⟨size, hbuffer, h⟩,
        fun ⟨_, h, hle⟩ => Option.some.inj (hbuffer.symm.trans h) ▸ hle⟩

/-- The bytes received, and the size the decoder is told. -/
structure ReceivedCommand where
  recvBuf : List UInt8
  size : UInt64

/-- The buffer handed to the decoder, with the heap behind it. -/
def ReceivedCommand.buffer (command : ReceivedCommand) (heap : Nat → UInt8) : Buffer where
  byte := extend command.recvBuf heap
  size := command.size.toNat

/-- How receiving ends, and the second call of `recv_all` if it is made. -/
structure Received where
  outcome : Option (Except Interruption ReceivedCommand)
  call : Option ReceiveCall

/-- Enlarge the buffer behind an accepted header, and receive the payload. -/
def receivePayload (receiver : Receiver) (memory : Allocator) (header : List UInt8)
    (commandLen : UInt64) (arrivals : List Arrival) : Received :=
  let size := 16 + commandLen
  let granted := memory.grants 1 size.toNat
  if receiver.checksRealloc ∧ ¬ granted then
    ⟨some (.error (.failed .failureCouldNotMalloc)), none⟩
  else
    let call : ReceiveCall :=
      { buffer := if granted then some size.toNat else none
        offset := 16
        length := commandLen.toNat }
    -- The result of `realloc` is used, and may be a null pointer.
    if ¬ granted then ⟨none, some call⟩
    else match recvAll commandLen.toNat arrivals with
    | none => ⟨some (.error .blocked), some call⟩
    | some (.error _, _) => ⟨some (.error (.failed .failureNetworkFunction)), some call⟩
    | some (.ok payload, _) => ⟨some (.ok ⟨header ++ payload, size⟩), some call⟩

def receiveCommand (receiver : Receiver) (order : ByteOrder) (memory : Allocator)
    (heap : Nat → UInt8) (arrivals : List Arrival) : Received :=
  if ¬ memory.grants 0 sizeofCommandHeader then
    ⟨some (.error (.failed .failureCouldNotMalloc)), none⟩
  else match recvAll sizeofCommandHeader arrivals with
  | none => ⟨some (.error .blocked), none⟩
  | some (.error _, _) => ⟨some (.error (.failed .failureNetworkFunction)), none⟩
  | some (.ok header, arrivals) =>
    match (commandHeaderDeserialize order (.ofBytes header heap) .start).1 with
    | .error code => ⟨some (.error (.failed code)), none⟩
    | .ok commandHeader =>
      if commandHeader.command ≠ receiver.command then
        ⟨some (.error (.failed .failureInvalidCommand)), none⟩
      else receivePayload receiver memory header commandHeader.commandLen arrivals

end LeoCoin
