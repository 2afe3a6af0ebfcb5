import LeoCoin.Core.Deserialize

/-!
# Networking

Command frames, and the two loops that move them through a socket.

A socket is what its calls return. `recv` returns whatever part of the stream
has arrived, at most as much as it is asked for, so the input is a list of
arrivals that the calls take from the front. An empty arrival is the return
value zero of a connection that the peer has closed. A list that runs out is a
call that does not return. `send` reports how much of what it was offered it
accepted.

A frame announces the size of its payload twice, in the header and in front of
the data. The decoder reads the second one, and its comparison with the buffer
size is made on 64-bit integers, where the sum may wrap.

`htonl` and `ntohl` convert to and from big endian, and so do `htons` and
`ntohs`.

A chain and a list of peers are sent in frames of one form, by two pairs of
functions that differ in the command code only. The pair for peers is the
general one at its code. The command that registers a peer has a payload of
fixed size. Its encoder takes that size from the structure, whose last four
bytes are padding, and its decoder reads the members.

## Main definitions

* `Chunk`, `Arrival`, `recvAll`: Receiving a number of bytes.
* `Acceptance`, `sendAll`: Sending some bytes.
* `CommandHeader`, `CommandSendBlockchain`: Commands.
* `commandHeaderSerialize`, `commandSendBlockchainSerialize`: The encoders.
* `commandHeaderDeserialize`, `commandSendBlockchainDeserialize`: The decoders.
* `DataCommand`, `dataCommandSerialize`, `dataCommandDeserialize`: Frames with
  data, at any command code.
* `CommandSendPeerList`, `CommandRegisterPeer`: The commands of peer discovery,
  with their encoders and decoders.
-/

namespace LeoCoin

open Decoder

/-- Part of a stream. One call of `recv` returns less than `2 ^ 31` bytes, so
    the count fits the `int` it is stored in. -/
abbrev Chunk : Type := { bs : List UInt8 // bs.length < 2 ^ 31 }

/-- What one call of `recv` finds: part of the stream, empty if the peer has
    closed the connection, or an error. -/
inductive Arrival where
  | bytes (chunk : Chunk)
  | failed

/-- Put back the part of a chunk that was not asked for. -/
def Chunk.rest (chunk : Chunk) (n : Nat) : Chunk :=
  ⟨chunk.val.drop n, Nat.lt_of_le_of_lt (by rw [List.length_drop]; omega) chunk.property⟩

/-- Receive `len` bytes: the bytes or an error, and the arrivals left over. It
    does not return if the arrivals run out. -/
def recvAll : (len : Nat) → List Arrival →
    Option (Except ReturnCode (List UInt8) × List Arrival)
  | 0, arrivals => some (.ok [], arrivals)
  | _ + 1, [] => none
  | _ + 1, .failed :: arrivals => some (.error .failureNetworkFunction, arrivals)
  | len + 1, .bytes chunk :: arrivals =>
    -- More has arrived than is asked for, and the rest waits for the next call.
    if len + 1 < chunk.val.length then
      some (.ok (chunk.val.take (len + 1)), .bytes (Chunk.rest chunk (len + 1)) :: arrivals)
    else match recvAll (len + 1 - chunk.val.length) arrivals with
    | none => none
    | some (.error code, arrivals') => some (.error code, arrivals')
    | some (.ok bs, arrivals') => some (.ok (chunk.val ++ bs), arrivals')

/-- What one call of `send` reports: how many bytes it takes of those offered,
    or an error. -/
inductive Acceptance where
  | accepted (n : Fin (2 ^ 31))
  | failed

/-- Send some bytes: the outcome, or `none` if a call does not return, and the
    bytes that were accepted. -/
def sendAll : List UInt8 → List Acceptance → Option (Except ReturnCode Unit) × List UInt8
  | [], _ => (some (.ok ()), [])
  | _ :: _, [] => (none, [])
  | _ :: _, .failed :: _ => (some (.error .failureNetworkFunction), [])
  | b :: bs, .accepted n :: acceptances =>
    let sent := sendAll ((b :: bs).drop n) acceptances
    (sent.1, (b :: bs).take n ++ sent.2)

/-- The characters `LEO` and a zero. -/
def COMMAND_PREFIX : Bytes 4 := ⟨[0x4c, 0x45, 0x4f, 0x00], rfl⟩

def COMMAND_SEND_BLOCKCHAIN : UInt32 := 4

def sizeofCommandHeader : Nat := 16

structure CommandHeader where
  commandPrefix : Bytes 4
  command : UInt32
  commandLen : UInt64
  deriving DecidableEq

/-- A frame holding an encoded chain. The data length is the length of the
    data; nothing ties the length in the header to it. -/
structure CommandSendBlockchain where
  header : CommandHeader
  blockchainDataLen : UInt64
  blockchainData : List UInt8
  length_data : blockchainData.length = blockchainDataLen.toNat

def commandHeaderSerialize (order : ByteOrder) (alloc : Allocator) (call : Nat)
    (header : CommandHeader) : Except ReturnCode (List UInt8) :=
  if ¬ alloc.grants call sizeofCommandHeader then .error .failureCouldNotMalloc
  else if header.commandPrefix ≠ COMMAND_PREFIX then .error .failureInvalidCommandPrefix
  else .ok (header.commandPrefix.toList ++ bigEndian 4 header.command.toNat ++
    storeUInt64 order (htobe64 order header.commandLen))

/-- Read and compare the bytes of a prefix one by one. -/
def readPrefix (buffer : Buffer) : List UInt8 → Decoder ReturnCode Unit
  | [] => pure ()
  | c :: cs => do
    let b ← readBytes buffer 1
    -- The cursor has passed the byte that differs.
    if b.head ≠ c then fail .failureInvalidCommandPrefix else readPrefix buffer cs

def commandHeaderDeserialize (order : ByteOrder) (buffer : Buffer) :
    Decoder ReturnCode CommandHeader := do
  checkRead buffer 4 .failureBufferTooSmall
  readPrefix buffer COMMAND_PREFIX.toList
  let command ← readArray buffer 4
  let commandLen ← readUInt64 order buffer
  pure
    { commandPrefix := COMMAND_PREFIX
      command := UInt32.ofNat (bigEndianValue command.toList)
      commandLen := commandLen }

/-- The frame, and the command as the encoder leaves it. -/
def commandSendBlockchainSerialize (order : ByteOrder) (alloc : Allocator)
    (command : CommandSendBlockchain) :
    Except ReturnCode (List UInt8 × CommandSendBlockchain) :=
  if command.header.command ≠ COMMAND_SEND_BLOCKCHAIN then .error .failureInvalidCommand
  else if ¬ alloc.grants 0 8 then .error .failureCouldNotMalloc
  else
    -- The length the caller put into the header is replaced.
    let header := { command.header with commandLen := 8 + command.blockchainDataLen }
    match commandHeaderSerialize order alloc 1 header with
    | .error code => .error code
    | .ok headerBuffer =>
      let totalSize := 16 + 8 + command.blockchainDataLen
      if ¬ alloc.grants 2 totalSize.toNat then .error .failureCouldNotMalloc
      else .ok (headerBuffer ++ storeUInt64 order (htobe64 order command.blockchainDataLen) ++
        command.blockchainData, { command with header := header })

def commandSendBlockchainDeserialize (order : ByteOrder) (alloc : Allocator) (buffer : Buffer) :
    Decoder ReturnCode CommandSendBlockchain := do
  let header ← commandHeaderDeserialize order buffer
  if header.command ≠ COMMAND_SEND_BLOCKCHAIN then fail .failureInvalidCommand
  else do
    let blockchainDataLen ← readUInt64 order buffer
    -- The sum is a 64-bit integer and may wrap.
    let totalReadSize := 24 + blockchainDataLen
    if totalReadSize.toNat > buffer.size then fail .failureBufferTooSmall
    else do
      allocate alloc blockchainDataLen.toNat .failureCouldNotMalloc
      let blockchainData ← readBytes buffer blockchainDataLen.toNat
      pure
        { header := header
          blockchainDataLen := blockchainDataLen
          blockchainData := blockchainData.toList
          length_data := List.Vector.toList_length blockchainData }

/-- A command whose payload is a length and as many bytes of data. -/
structure DataCommand where
  header : CommandHeader
  dataLen : UInt64
  data : List UInt8
  length_data : data.length = dataLen.toNat

/-- The frame of a command with data, and the command as the encoder leaves
    it. -/
def dataCommandSerialize (code : UInt32) (order : ByteOrder) (alloc : Allocator)
    (command : DataCommand) : Except ReturnCode (List UInt8 × DataCommand) :=
  if command.header.command ≠ code then .error .failureInvalidCommand
  else if ¬ alloc.grants 0 8 then .error .failureCouldNotMalloc
  else
    -- The length the caller put into the header is replaced.
    let header := { command.header with commandLen := 8 + command.dataLen }
    match commandHeaderSerialize order alloc 1 header with
    | .error code => .error code
    | .ok headerBuffer =>
      let totalSize := 16 + 8 + command.dataLen
      if ¬ alloc.grants 2 totalSize.toNat then .error .failureCouldNotMalloc
      else .ok (headerBuffer ++ storeUInt64 order (htobe64 order command.dataLen) ++
        command.data, { command with header := header })

def dataCommandDeserialize (code : UInt32) (order : ByteOrder) (alloc : Allocator)
    (buffer : Buffer) : Decoder ReturnCode DataCommand := do
  let header ← commandHeaderDeserialize order buffer
  if header.command ≠ code then fail .failureInvalidCommand
  else do
    let dataLen ← readUInt64 order buffer
    -- The sum is a 64-bit integer and may wrap.
    let totalReadSize := 24 + dataLen
    if totalReadSize.toNat > buffer.size then fail .failureBufferTooSmall
    else do
      allocate alloc dataLen.toNat .failureCouldNotMalloc
      let data ← readBytes buffer dataLen.toNat
      pure
        { header := header
          dataLen := dataLen
          data := data.toList
          length_data := List.Vector.toList_length data }

def COMMAND_SEND_PEER_LIST : UInt32 := 3

/-- A frame holding an encoded list of peers. -/
abbrev CommandSendPeerList : Type := DataCommand

def commandSendPeerListSerialize (order : ByteOrder) (alloc : Allocator)
    (command : CommandSendPeerList) : Except ReturnCode (List UInt8 × CommandSendPeerList) :=
  dataCommandSerialize COMMAND_SEND_PEER_LIST order alloc command

def commandSendPeerListDeserialize (order : ByteOrder) (alloc : Allocator) (buffer : Buffer) :
    Decoder ReturnCode CommandSendPeerList :=
  dataCommandDeserialize COMMAND_SEND_PEER_LIST order alloc buffer

/-- A socket address, in an object of 28 bytes without padding. -/
structure SockaddrIn6 where
  sin6Family : UInt16
  sin6Port : UInt16
  sin6Flowinfo : UInt32
  sin6Addr : Bytes 16
  sin6ScopeId : UInt32
  deriving DecidableEq

/-- What the encoders write for a socket address: the integers through `htons`
    and `htonl`. -/
def sockaddrBytes (addr : SockaddrIn6) : List UInt8 :=
  bigEndian 2 addr.sin6Family.toNat ++ bigEndian 2 addr.sin6Port.toNat ++
    bigEndian 4 addr.sin6Flowinfo.toNat ++ addr.sin6Addr.toList ++
    bigEndian 4 addr.sin6ScopeId.toNat

@[simp]
theorem sockaddrBytes_length (addr : SockaddrIn6) : (sockaddrBytes addr).length = 28 := by
  simp only [sockaddrBytes, List.length_append, bigEndian_length, List.Vector.toList_length]

def readUInt16 (buffer : Buffer) : Decoder ReturnCode UInt16 := do
  let p ← readArray buffer 2
  pure (UInt16.ofNat (bigEndianValue p.toList))

def readUInt32 (buffer : Buffer) : Decoder ReturnCode UInt32 := do
  let p ← readArray buffer 4
  pure (UInt32.ofNat (bigEndianValue p.toList))

/-- The members of a socket address, each behind its comparison. -/
def readSockaddr (buffer : Buffer) : Decoder ReturnCode SockaddrIn6 := do
  let sin6Family ← readUInt16 buffer
  let sin6Port ← readUInt16 buffer
  let sin6Flowinfo ← readUInt32 buffer
  let sin6Addr ← readArray buffer 16
  let sin6ScopeId ← readUInt32 buffer
  pure
    { sin6Family := sin6Family
      sin6Port := sin6Port
      sin6Flowinfo := sin6Flowinfo
      sin6Addr := sin6Addr
      sin6ScopeId := sin6ScopeId }

def COMMAND_REGISTER_PEER : UInt32 := 2

/-- The size of the structure, with four bytes of padding behind the last
    member. -/
def sizeofCommandRegisterPeer : Nat := 48

/-- The request to register a peer. The members behind the header are those of
    a socket address. -/
structure CommandRegisterPeer extends SockaddrIn6 where
  header : CommandHeader
  deriving DecidableEq

/-- The frame, and the command as the encoder leaves it. -/
def commandRegisterPeerSerialize (order : ByteOrder) (alloc : Allocator)
    (command : CommandRegisterPeer) :
    Except ReturnCode (List UInt8 × CommandRegisterPeer) :=
  if command.header.command ≠ COMMAND_REGISTER_PEER then .error .failureInvalidCommand
  else
    let registerPeerSize := sizeofCommandRegisterPeer - sizeofCommandHeader
    if ¬ alloc.grants 0 registerPeerSize then .error .failureCouldNotMalloc
    else
      let header := { command.header with commandLen := UInt64.ofNat registerPeerSize }
      match commandHeaderSerialize order alloc 1 header with
      | .error code => .error code
      | .ok headerBuffer =>
        if ¬ alloc.grants 2 (sizeofCommandHeader + registerPeerSize) then
          .error .failureCouldNotMalloc
        -- The buffer comes from `calloc`, and its last four bytes are not written.
        else .ok (headerBuffer ++ sockaddrBytes command.toSockaddrIn6 ++ List.replicate 4 0,
          { command with header := header })

def commandRegisterPeerDeserialize (order : ByteOrder) (buffer : Buffer) :
    Decoder ReturnCode CommandRegisterPeer := do
  let header ← commandHeaderDeserialize order buffer
  if header.command ≠ COMMAND_REGISTER_PEER then fail .failureInvalidCommand
  else do
    let addr ← readSockaddr buffer
    pure { addr with header := header }

end LeoCoin
