import LeoCoin.Core.ConsensusPeerServer
import LeoCoin.Core.OwnedBlockchain

/-!
# Owned Consensus

The handler of a consensus request with every allocation and every release.

The handler has up to four objects at a time besides the chain of the peer: the
buffer it receives into, the data of the command, the encoded chain that takes
their place in it, and the reply. Its end releases nothing. So what is released
is what the statements before it release, and those behind the reply are reached
only if everything has succeeded.

The encoder of a chain stores what `realloc` returns over its only pointer to
the buffer, so a buffer that cannot be enlarged is not released either. The
encoder of a command releases its two parts however it ends.

The old chain is destroyed here, as the handler has no one else in view.

## Main definitions

* `OwnedSync`: The published chain as objects.
* `OnHeap.blockchainSerialize`, `OnHeap.commandSendBlockchainSerialize`: The
  encoders.
* `PeerMessage`: What the handler holds when it has decoded a request.
* `OnHeap.receivePeerBlockchain`, `OnHeap.replyWithBlockchain`,
  `OnHeap.handleOneConsensusRequest`: The handler.
-/

namespace LeoCoin

/-- The published chain and its version. -/
structure OwnedSync where
  blockchain : OwnedBlockchain
  version : UInt64

def OwnedSync.sync (s : OwnedSync) : SynchronizedBlockchain where
  blockchain := s.blockchain.blockchain
  version := s.version

/-- How the handler ends. -/
structure OwnedHandled where
  ending : Except Interruption Unit
  sync : OwnedSync
  sent : List UInt8
  printed : List String

def OwnedHandled.handled (h : OwnedHandled) : Handled where
  ending := h.ending
  sync := h.sync.sync
  sent := h.sent
  printed := h.printed

/-- A decoded request: the buffer it was received into, the data of the command,
    and the chain of the peer. -/
structure PeerMessage where
  command : CommandSendBlockchain
  recvBuf : Nat
  blockchainData : Nat
  peerBlockchain : OwnedBlockchain

namespace OnHeap

section Encoders

variable (order : ByteOrder) (alloc : Allocator)

theorem chainHeader_addressable : 16 ≤ PTRDIFF_MAX := by decide

theorem blockHeader_addressable : 56 ≤ PTRDIFF_MAX := by decide

theorem transaction_addressable : 8728 ≤ PTRDIFF_MAX := by decide

/-- Enlarge the buffer by `n` bytes and write them. If that fails, the buffer
    stays where it is. -/
def append (n : Nat) (written : Bytes n) (hn : n ≤ PTRDIFF_MAX)
    (buffer : Allocated SerializationBuffer) :
    EStateM ReturnCode Ledger (Allocated SerializationBuffer) := fun l =>
  match buffer.data.append alloc n written hn with
  | .error code => .error code l
  | .ok data => .ok ⟨(l.realloc buffer.name).1, data⟩ (l.realloc buffer.name).2

/-- The first round, which is a `calloc`. -/
def create (call n : Nat) (written : Bytes n) (hn : n ≤ PTRDIFF_MAX) :
    EStateM ReturnCode Ledger (Allocated SerializationBuffer) := fun l =>
  match (SerializationBuffer.empty call).append alloc n written hn with
  | .error code => .error code l
  | .ok data => .ok ⟨l.malloc.1, data⟩ l.malloc.2

def serializeTransaction (buffer : Allocated SerializationBuffer) (t : Transaction) :
    EStateM ReturnCode Ledger (Allocated SerializationBuffer) :=
  append alloc 8728 ⟨transactionBytes order t, transactionBytes_length order t⟩
    transaction_addressable buffer

def serializeBlock (buffer : Allocated SerializationBuffer) (b : Block) :
    EStateM ReturnCode Ledger (Allocated SerializationBuffer) := do
  let buffer ← append alloc 56
    ⟨blockHeaderBytes order b, blockHeaderBytes_length order b⟩ blockHeader_addressable buffer
  b.transactionList.foldlM (serializeTransaction order alloc) buffer

def blockchainSerialize (call : Nat) (c : Blockchain) :
    EStateM ReturnCode Ledger (Allocated SerializationBuffer) := do
  let buffer ← create alloc call 16
    ⟨blockchainHeaderBytes order c, blockchainHeaderBytes_length order c⟩ chainHeader_addressable
  c.blockList.foldlM (serializeBlock order alloc) buffer

/-- The header, released if its prefix is refused. -/
def commandHeaderSerialize (call : Nat) (commandHeader : CommandHeader) :
    EStateM ReturnCode Ledger (Allocated (List UInt8)) := fun l =>
  if ¬ alloc.grants call sizeofCommandHeader then .error .failureCouldNotMalloc l
  else
    match LeoCoin.commandHeaderSerialize order alloc call commandHeader with
    | .error code => .error code (l.malloc.2.free l.malloc.1)
    | .ok bytes => .ok ⟨l.malloc.1, bytes⟩ l.malloc.2

/-- The frame of a command. Its length and its header are released once they are
    copied, or cannot be. -/
def commandSendBlockchainSerialize (command : CommandSendBlockchain) :
    EStateM ReturnCode Ledger (Allocated (List UInt8)) := fun l =>
  if command.header.command ≠ COMMAND_SEND_BLOCKCHAIN then .error .failureInvalidCommand l
  else if ¬ alloc.grants 0 8 then .error .failureCouldNotMalloc l
  else
    let sendCommandBuffer := l.malloc.1
    let header := { command.header with commandLen := 8 + command.blockchainDataLen }
    match commandHeaderSerialize order alloc 1 header l.malloc.2 with
    | .error code l => .error code (l.free sendCommandBuffer)
    | .ok headerBuffer l =>
      let totalSize := 16 + 8 + command.blockchainDataLen
      if ¬ alloc.grants 2 totalSize.toNat then
        .error .failureCouldNotMalloc ((l.free headerBuffer.name).free sendCommandBuffer)
      else
        .ok ⟨l.malloc.1, headerBuffer.data ++
            storeUInt64 order (htobe64 order command.blockchainDataLen) ++ command.blockchainData⟩
          ((l.malloc.2.free headerBuffer.name).free sendCommandBuffer)

end Encoders

/-- Decode a received command and the chain in it. -/
def decodePeerBlockchain (order : ByteOrder) (r : Request) (recvBytes : List UInt8)
    (recvBuf : Nat) (l : Ledger) : Except Interruption PeerMessage × Ledger :=
  match (commandSendBlockchainDeserialize order (r.memory .frame)
      (.ofBytes recvBytes (r.heap .frame)) .start).1 with
  | .error code => (.error (.failed code), l)
  | .ok command =>
    let blockchainData := l.malloc.1
    match blockchainDeserialize order (r.memory .decode)
        (.ofBytes command.blockchainData (r.heap .decode)) .start l.malloc.2 with
    | (.error code, _, l) => (.error (.failed code), l)
    | (.ok peerBlockchain, _, l) => (.ok ⟨command, recvBuf, blockchainData, peerBlockchain⟩, l)

/-- Receive a command and decode the chain in it. -/
def receivePeerBlockchain (order : ByteOrder) (r : Request) (l : Ledger) :
    Option (Except Interruption PeerMessage × Ledger) :=
  if ¬ (r.memory .receive).grants 0 sizeofCommandHeader then
    some (.error (.failed .failureCouldNotMalloc), l)
  else
    let recvBuf := l.malloc.1
    let l := l.malloc.2
    match recvAll sizeofCommandHeader r.arrivals with
    | none => some (.error .blocked, l)
    | some (.error _, _) => some (.error (.failed .failureNetworkFunction), l)
    | some (.ok header, arrivals) =>
      match (commandHeaderDeserialize order (.ofBytes header (r.heap .receive)) .start).1 with
      | .error code => some (.error (.failed code), l)
      | .ok commandHeader =>
        if commandHeader.command ≠ COMMAND_SEND_BLOCKCHAIN then
          some (.error (.failed .failureInvalidCommand), l)
        else
          let size := 16 + commandHeader.commandLen
          if size < commandHeader.commandLen ∨ ¬ (r.memory .receive).grants 1 size.toNat then none
          else
            let moved := l.realloc recvBuf
            match recvAll commandHeader.commandLen.toNat arrivals with
            | none => some (.error .blocked, moved.2)
            | some (.error _, _) => some (.error (.failed .failureNetworkFunction), moved.2)
            | some (.ok payload, _) =>
              some (decodePeerBlockchain order r (header ++ payload) moved.1 moved.2)

/-- Replace the data of the command by the published chain, unlock, and send the
    command back. The chain of the peer is destroyed if it is not published. -/
def replyWithBlockchain (order : ByteOrder) (r : Request) (message : PeerMessage)
    (switchedToPeerChain : Bool) (sync : OwnedSync) (printed : List String) (l : Ledger) :
    OwnedHandled × Ledger :=
  match blockchainSerialize order (r.memory .encode) 0 sync.blockchain.blockchain
      (l.free message.blockchainData) with
  | .error code l => (⟨.error (.failed code), sync, [], printed⟩, l)
  | .ok buffer l =>
    -- The buffer of the encoded chain is left from here on.
    if r.unlock ≠ 0 then (⟨.error (.failed (.errno r.unlock)), sync, [], printed⟩, l)
    else
      let l := if switchedToPeerChain then l else blockchainDestroy message.peerBlockchain l
      match commandSendBlockchainSerialize order (r.memory .reply)
          ⟨message.command.header, buffer.data.size, buffer.data.bytes,
            buffer.data.bytes_length⟩ l with
      | .error code l => (⟨.error (.failed code), sync, [], printed⟩, l)
      | .ok sendBuf l =>
        match sendAll sendBuf.data r.acceptances with
        | (none, sent) => (⟨.error .blocked, sync, sent, printed⟩, l)
        | (some (.error _), sent) =>
          (⟨.error (.failed .failureNetworkFunction), sync, sent, printed⟩, l)
        | (some (.ok ()), sent) =>
          (⟨.ok (), sync, sent, printed⟩,
            ((l.free buffer.name).free sendBuf.name).free message.recvBuf)

def handleOneConsensusRequest (host : Host) (printProgress : Bool) (sync : OwnedSync)
    (r : Request) (l : Ledger) : Option (OwnedHandled × Ledger) :=
  match receivePeerBlockchain host.byteOrder r l with
  | none => none
  | some (.error interruption, l) => some (⟨.error interruption, sync, [], []⟩, l)
  | some (.ok message, l) =>
    match blockchainVerify host message.peerBlockchain.blockchain with
    | .error code => some (⟨.error (.failed code), sync, [], []⟩, l)
    | .ok verdict =>
      let printed := if ¬ verdict.isValidBlockchain ∧ printProgress then
        ["Server received invalid blockchain\n"] else []
      if r.lock ≠ 0 then some (⟨.error (.failed (.errno r.lock)), sync, [], printed⟩, l)
      else
        let switch := considerPeerBlockchain printProgress sync.sync
          message.peerBlockchain.blockchain verdict.isValidBlockchain
        if switchesToPeerBlockchain sync.blockchain.blockchain message.peerBlockchain.blockchain
            verdict.isValidBlockchain then
          -- The old chain is destroyed before the reply is encoded.
          some (replyWithBlockchain host.byteOrder r message true
            ⟨message.peerBlockchain, sync.version + 1⟩ (printed ++ switch.2)
            (blockchainDestroy sync.blockchain l))
        else
          some (replyWithBlockchain host.byteOrder r message false sync (printed ++ switch.2) l)

end OnHeap

end LeoCoin
