import LeoCoin.Theory.Framing

/-!
# Commands

What the encoders and decoders of the commands return.

A buffer that is long enough determines the command in it. `commandHeaderAt`,
`dataCommandAt` and `commandRegisterPeerAt` are what lies at its beginning, and
the decoders return that or say why not. An encoding that lies there is read
back, on a host of either byte order.

The decoder of a command with data can stop in two ways that depend on the
announced length. `DataCommandStop` keeps what matters about each: the sum that
was compared, where the cursor was, and whether memory had been requested.

The commands that carry a chain are commands with data under other names. The
comparison of their length is made on a sum that can wrap, but it only does for
lengths that no allocator grants, so a frame that is returned lies inside its
buffer.

## Main definitions

* `dataCommandBytes`, `registerPeerBytes`: The encodings.
* `dataCommandAt`, `sockaddrAt`, `commandRegisterPeerAt`: What lies at an offset.
* `DataCommandStop`: Why a command with data is refused.
* `CommandSendBlockchain.toDataCommand`: A chain as data.

## Theorems

* `commandHeaderDeserialize_ok_iff`: The headers that are decoded.
* `wp_dataCommandDeserialize`: What the decoder of data returns.
* `dataCommandSerialize_ok`, `dataCommandDeserialize_ok`: Both directions.
* `commandSendBlockchainSerialize_eq`, `commandSendBlockchainDeserialize_eq`: A
  chain is sent as data.
* `wp_commandSendBlockchainDeserialize`: What the frame decoder returns.
* `bytes_of_commandSendBlockchainSerialize`: What the frame encoder returns.
* `commandSendBlockchainDeserialize_ok`: An encoded frame is decoded.
* `commandRegisterPeerSerialize_ok`, `commandRegisterPeerDeserialize_ok`: Both
  directions.
-/

namespace LeoCoin

open Decoder

-- The decoders are looked at through the rules of `wp` only.
attribute [local irreducible] wp

section Integers

variable {s : Cursor} {E : ReturnCode → Cursor → Prop} {b : Buffer}

theorem wp_readUInt16 {Q : UInt16 → Cursor → Prop}
    (hok : ∀ s', s'.pos = s.pos + 2 → s'.pos ≤ b.size →
      Q (UInt16.ofNat (bigEndianValue (slice b.byte s.pos 2))) s')
    (hfail : b.size < s.pos + 2 → E .failureBufferTooSmall s) :
    wp (readUInt16 b) s Q E :=
  wp_bind (wp_readArray (fun s' hp hf => wp_pure (hok s' hp hf)) hfail)

theorem wp_readUInt32 {Q : UInt32 → Cursor → Prop}
    (hok : ∀ s', s'.pos = s.pos + 4 → s'.pos ≤ b.size →
      Q (UInt32.ofNat (bigEndianValue (slice b.byte s.pos 4))) s')
    (hfail : b.size < s.pos + 4 → E .failureBufferTooSmall s) :
    wp (readUInt32 b) s Q E :=
  wp_bind (wp_readArray (fun s' hp hf => wp_pure (hok s' hp hf)) hfail)

end Integers

theorem quiet_readArray (b : Buffer) (n : Nat) : Quiet (readArray b n) :=
  quiet_bind (quiet_checkRead b n _) fun _ => quiet_readBytes b n

theorem quiet_readUInt64 (order : ByteOrder) (b : Buffer) : Quiet (readUInt64 order b) :=
  quiet_bind (quiet_checkRead b 8 _) fun _ =>
    quiet_bind (quiet_readBytes b 8) fun _ => quiet_pure _

theorem quiet_readPrefix (b : Buffer) (cs : List UInt8) : Quiet (readPrefix b cs) := by
  induction cs with
  | nil => exact quiet_pure ()
  | cons c cs ih =>
      refine quiet_bind (quiet_readBytes b 1) ?_
      intro byte
      by_cases h : byte.head ≠ c
      · rw [if_pos h]
        exact quiet_fail _
      · rw [if_neg h]
        exact ih

theorem quiet_commandHeaderDeserialize (order : ByteOrder) (b : Buffer) :
    Quiet (commandHeaderDeserialize order b) :=
  quiet_bind (quiet_checkRead b 4 _) fun _ =>
    quiet_bind (quiet_readPrefix b _) fun _ =>
      quiet_bind (quiet_readArray b 4) fun _ =>
        quiet_bind (quiet_readUInt64 order b) fun _ => quiet_pure _

theorem uint32_of_holds (b : Buffer) (p : Nat) (x : UInt32)
    (h : Holds b p (bigEndian 4 x.toNat)) :
    UInt32.ofNat (bigEndianValue (slice b.byte p 4)) = x := by
  rw [Holds, bigEndian_length] at h
  rw [h, bigEndianValue_bigEndian_of_lt x.toNat_lt, UInt32.ofNat_toNat]

theorem uint16_of_holds (b : Buffer) (p : Nat) (x : UInt16)
    (h : Holds b p (bigEndian 2 x.toNat)) :
    UInt16.ofNat (bigEndianValue (slice b.byte p 2)) = x := by
  rw [Holds, bigEndian_length] at h
  rw [h, bigEndianValue_bigEndian_of_lt x.toNat_lt, UInt16.ofNat_toNat]

theorem holds_uint32 (b : Buffer) (p : Nat) :
    Holds b p (bigEndian 4 (UInt32.ofNat (bigEndianValue (slice b.byte p 4))).toNat) := by
  have hlt : bigEndianValue (slice b.byte p 4) < 2 ^ 32 := slice_value_lt b p 4
  rw [UInt32.toNat_ofNat', Nat.mod_eq_of_lt hlt]
  exact holds_spelling b p 4

theorem holds_uint16 (b : Buffer) (p : Nat) :
    Holds b p (bigEndian 2 (UInt16.ofNat (bigEndianValue (slice b.byte p 2))).toNat) := by
  have hlt : bigEndianValue (slice b.byte p 2) < 2 ^ 16 := slice_value_lt b p 2
  rw [UInt16.toNat_ofNat', Nat.mod_eq_of_lt hlt]
  exact holds_spelling b p 2

/-- An encoded header is read back. -/
theorem commandHeaderAt_of_holds (b : Buffer) (encoding : ByteOrder) (header : CommandHeader)
    (h : Holds b 0 (headerBytes encoding header)) : commandHeaderAt b = header := by
  simp only [headerBytes, holds_append, List.length_append, List.Vector.toList_length,
    bigEndian_length, Nat.zero_add] at h
  rcases h with ⟨⟨hpre, hcode⟩, hlen⟩
  rw [commandHeaderAt, bytesAt_of_holds b 0 4 _ hpre, uint32_of_holds b 4 _ hcode,
    fieldAt_of_holds b 8 encoding _ hlen]

/-- Any sixteen bytes are the encoding of the header that lies in them. -/
theorem holds_commandHeaderAt (b : Buffer) (encoding : ByteOrder) :
    Holds b 0 (headerBytes encoding (commandHeaderAt b)) := by
  simp only [headerBytes, commandHeaderAt, holds_append, List.length_append,
    List.Vector.toList_length, bigEndian_length, Nat.zero_add]
  exact ⟨⟨holds_bytesAt b 0 4, holds_uint32 b 4⟩, holds_fieldAt b 8 encoding⟩

/-- The header decoder returns a header exactly if it has the prefix and lies
    at the beginning of the buffer. -/
theorem commandHeaderDeserialize_ok_iff (order encoding : ByteOrder) (b : Buffer)
    (hsize : 16 ≤ b.size) (header : CommandHeader) :
    (commandHeaderDeserialize order b .start).1 = .ok header ↔
      header.commandPrefix = COMMAND_PREFIX ∧ Holds b 0 (headerBytes encoding header) := by
  have hspec := wp_commandHeaderDeserialize order b
  constructor
  · intro hrun
    rcases wp_ok hspec hrun with ⟨rfl, hfront, _, _⟩
    exact ⟨hfront, holds_commandHeaderAt b encoding⟩
  · rintro ⟨hfront, hholds⟩
    have heq := commandHeaderAt_of_holds b encoding header hholds
    rcases hrun : (commandHeaderDeserialize order b .start).1 with e | header'
    · rcases wp_error hspec hrun with ⟨_, hlt⟩ | ⟨_, hne⟩
      · omega
      · rw [← heq] at hfront
        exact absurd hfront hne
    · rw [(wp_ok hspec hrun).1, heq]

/-- The encoding of a command with data. -/
def dataCommandBytes (order : ByteOrder) (command : DataCommand) : List UInt8 :=
  headerBytes order command.header ++
    (storeUInt64 order (htobe64 order command.dataLen) ++ command.data)

theorem dataCommandBytes_length (order : ByteOrder) (command : DataCommand) :
    (dataCommandBytes order command).length = 24 + command.data.length := by
  rw [dataCommandBytes, List.length_append, List.length_append, headerBytes_length,
    storeUInt64_length]
  omega

/-- The command with data at the beginning of a buffer. -/
def dataCommandAt (b : Buffer) : DataCommand where
  header := commandHeaderAt b
  dataLen := fieldAt b 16
  data := slice b.byte 24 (fieldAt b 16).toNat
  length_data := slice_length _ _ _

theorem dataCommandAt_commandLen (b : Buffer) :
    (dataCommandAt b).header.commandLen = fieldAt b 8 := rfl

theorem dataCommandAt_length (b : Buffer) :
    (dataCommandAt b).data.length = (fieldAt b 16).toNat := (dataCommandAt b).length_data

/-- Why the decoder of a command with data stops. A length that is too long
    stops it before memory is requested and before data is read. -/
inductive DataCommandStop (code : UInt32) (alloc : Allocator) (b : Buffer) (e : ReturnCode)
    (s : Cursor) : Prop
  | short (h : b.size < 24) (he : e = .failureBufferTooSmall)
  | wrongPrefix (h : b.bytesAt 0 4 ≠ COMMAND_PREFIX) (he : e = .failureInvalidCommandPrefix)
  | wrongCommand (h : (commandHeaderAt b).command ≠ code) (he : e = .failureInvalidCommand)
  | tooLong (h : b.size < (24 + fieldAt b 16).toNat) (he : e = .failureBufferTooSmall)
      (hpos : s.pos = 24) (hcalls : s.calls = 0)
  | refused (h : ¬ alloc.grants 0 (fieldAt b 16).toNat = true)
      (hfit : (24 + fieldAt b 16).toNat ≤ b.size)
      (he : e = .failureCouldNotMalloc) (hpos : s.pos = 24)

/-- The decoder returns the command that lies in the buffer, and has read up to
    the end of its data. -/
theorem wp_dataCommandDeserialize (code : UInt32) (order : ByteOrder) (alloc : Allocator)
    (b : Buffer) :
    wp (dataCommandDeserialize code order alloc b) .start
      (fun command s' => command = dataCommandAt b ∧ b.bytesAt 0 4 = COMMAND_PREFIX ∧
        (commandHeaderAt b).command = code ∧ 24 + (fieldAt b 16).toNat ≤ b.size ∧
        s'.pos = 24 + (fieldAt b 16).toNat ∧ alloc.grants 0 (fieldAt b 16).toNat = true)
      (fun e s' => DataCommandStop code alloc b e s') := by
  refine wp_bind (wp_mono (wp_quiet (quiet_commandHeaderDeserialize order b)
    (wp_commandHeaderDeserialize order b)) ?_ ?_)
  · rintro header s1 ⟨⟨rfl, hfront, p1, f1⟩, c1⟩
    by_cases hcommand : (commandHeaderAt b).command = code
    · rw [if_neg (not_not_intro hcommand)]
      refine wp_bind (wp_mono (wp_quiet (quiet_readUInt64 order b) (wp_readUInt64
        (Q := fun x s' => x = fieldAt b 16 ∧ s'.pos = 24 ∧ 24 ≤ b.size)
        (E := fun e _ => b.size < 24 ∧ e = .failureBufferTooSmall) ?_ ?_)) ?_ ?_)
      · intro s2 p2 f2
        rw [p1] at p2 ⊢
        exact ⟨rfl, p2, by omega⟩
      · intro h
        exact ⟨by omega, rfl⟩
      · rintro x s2 ⟨⟨rfl, p2, f2⟩, c2⟩
        have hsum : (24 + fieldAt b 16).toNat = (24 + (fieldAt b 16).toNat) % 2 ^ 64 :=
          UInt64.toNat_add 24 _
        by_cases hsize : (24 + fieldAt b 16).toNat > b.size
        · rw [if_pos hsize]
          exact wp_fail (.tooLong hsize rfl p2 (c2.trans c1))
        · rw [if_neg hsize]
          -- It is the first request the decoder makes.
          have hcalls : s2.calls = 0 := c2.trans c1
          refine wp_bind (wp_allocate_call ?_ fun hg =>
            .refused (hcalls ▸ hg) (Nat.not_lt.mp hsize) rfl p2)
          intro hgrant
          -- A length that is granted is too small for the sum to wrap.
          have hmax := alloc.bounded _ _ hgrant
          unfold PTRDIFF_MAX at hmax
          have hpos : (s2.request 1).pos = 24 := p2
          rw [hcalls] at hgrant
          refine wp_bind (wp_readBytes (wp_pure ⟨?_, hfront, hcommand, by omega, ?_, hgrant⟩))
          · simp only [dataCommandAt, hpos, DataCommand.mk.injEq, true_and]
            rfl
          · rw [Cursor.advance_pos, hpos]
      · rintro e s2 ⟨⟨hlt, rfl⟩, _⟩
        exact .short hlt rfl
    · rw [if_pos hcommand]
      exact wp_fail (.wrongCommand hcommand rfl)
  · rintro e s1 ⟨⟨rfl, hsmall⟩ | ⟨rfl, hfront⟩, _⟩
    · exact .short (by omega) rfl
    · exact .wrongPrefix hfront rfl

/-- An encoded command with data is read back. -/
theorem dataCommandAt_of_holds (b : Buffer) (encoding : ByteOrder) (command : DataCommand)
    (h : Holds b 0 (dataCommandBytes encoding command)) : dataCommandAt b = command := by
  simp only [dataCommandBytes, holds_append, headerBytes_length, storeUInt64_length,
    Nat.zero_add] at h
  rcases h with ⟨hheader, hlen, hdata⟩
  have e1 := commandHeaderAt_of_holds b encoding _ hheader
  have e2 : fieldAt b 16 = command.dataLen := fieldAt_of_holds b 16 encoding _ hlen
  rw [Holds, command.length_data, ← e2] at hdata
  rcases command with ⟨header, dataLen, data, hl⟩
  simp only at e1 e2 hdata
  simp only [dataCommandAt, e1, e2, DataCommand.mk.injEq, true_and]
  rw [← e2]
  exact hdata

/-- A command with data whose encoding lies at the beginning of a buffer is
    decoded if its memory is granted. -/
theorem dataCommandDeserialize_ok (code : UInt32) (order encoding : ByteOrder)
    (alloc : Allocator) (b : Buffer) (command : DataCommand)
    (hfront : command.header.commandPrefix = COMMAND_PREFIX)
    (hcode : command.header.command = code)
    (hholds : Holds b 0 (dataCommandBytes encoding command))
    (hsize : (dataCommandBytes encoding command).length ≤ b.size)
    (halloc : alloc.Grants command.data.length) :
    (dataCommandDeserialize code order alloc b .start).1 = .ok command := by
  rw [dataCommandBytes_length] at hsize
  have hcommand := dataCommandAt_of_holds b encoding command hholds
  have e1 : commandHeaderAt b = command.header := congrArg DataCommand.header hcommand
  have e2 : fieldAt b 16 = command.dataLen := congrArg DataCommand.dataLen hcommand
  rw [command.length_data, ← e2] at hsize halloc
  have hmax := halloc.le_max
  unfold PTRDIFF_MAX at hmax
  have hsum : (24 + fieldAt b 16).toNat = (24 + (fieldAt b 16).toNat) % 2 ^ 64 :=
    UInt64.toNat_add 24 _
  have hspec := wp_dataCommandDeserialize code order alloc b
  -- Each reason to refuse the command contradicts what was encoded.
  rcases hrun : (dataCommandDeserialize code order alloc b .start).1 with e | command'
  · exfalso
    rcases wp_error hspec hrun with ⟨h, _⟩ | ⟨h, _⟩ | ⟨h, _⟩ | ⟨h, _⟩ | ⟨h, _⟩
    · omega
    · rw [← e1] at hfront
      exact h hfront
    · rw [e1] at h
      exact h hcode
    · omega
    · exact h (halloc 0 _ (Nat.le_refl _))
  · rw [(wp_ok hspec hrun).1, hcommand]

/-- The encoder of a command with data returns its encoding, with the size of
    the payload in the header, if its memory is granted. -/
theorem dataCommandSerialize_ok (code : UInt32) (order : ByteOrder) (alloc : Allocator)
    (command : DataCommand) (hfront : command.header.commandPrefix = COMMAND_PREFIX)
    (hcode : command.header.command = code) (halloc : alloc.Grants (24 + command.data.length)) :
    let sent := { command with
      header := { command.header with commandLen := 8 + command.dataLen } }
    dataCommandSerialize code order alloc command = .ok (dataCommandBytes order sent, sent) := by
  have hmax := halloc.le_max
  unfold PTRDIFF_MAX at hmax
  have hlen := command.length_data
  have htotal : (16 + 8 + command.dataLen).toNat = 24 + command.data.length := by
    have hsum : (16 + 8 + command.dataLen).toNat = (24 + command.dataLen.toNat) % 2 ^ 64 :=
      UInt64.toNat_add 24 _
    omega
  have h0 : alloc.grants 0 8 = true := halloc 0 8 (by omega)
  have h1 : alloc.grants 1 sizeofCommandHeader = true := halloc 1 16 (by omega)
  have h2 : alloc.grants 2 (16 + 8 + command.dataLen).toNat = true :=
    halloc 2 _ (Nat.le_of_eq htotal)
  simp only [dataCommandSerialize, commandHeaderSerialize, hcode, hfront, h0, h1, h2, ne_eq,
    not_true_eq_false, if_false, dataCommandBytes, headerBytes, List.append_assoc]

/-- Whatever the encoder of a command with data returns is its encoding. -/
theorem bytes_of_dataCommandSerialize (code : UInt32) (order : ByteOrder) (alloc : Allocator)
    (command sent : DataCommand) (bs : List UInt8)
    (h : dataCommandSerialize code order alloc command = .ok (bs, sent)) :
    command.header.command = code ∧ command.header.commandPrefix = COMMAND_PREFIX ∧
      sent = { command with
        header := { command.header with commandLen := 8 + command.dataLen } } ∧
      bs = dataCommandBytes order sent := by
  unfold dataCommandSerialize at h
  -- Each test the encoder makes must have gone the way of success.
  split at h
  · exact absurd h (by simp only [reduceCtorEq, not_false_eq_true])
  rename_i hcode
  split at h
  · exact absurd h (by simp only [reduceCtorEq, not_false_eq_true])
  simp only at h
  split at h
  · exact absurd h (by simp only [reduceCtorEq, not_false_eq_true])
  rename_i header hheader
  rcases (commandHeaderSerialize_ok_iff _ _ _ _ _).mp hheader with ⟨_, hfront, hbytes⟩
  split at h
  · exact absurd h (by simp only [reduceCtorEq, not_false_eq_true])
  simp only [Except.ok.injEq, Prod.mk.injEq] at h
  rcases h with ⟨rfl, rfl⟩
  refine ⟨not_not.mp hcode, hfront, rfl, ?_⟩
  rw [dataCommandBytes, hbytes, List.append_assoc]

/-- A command that carries a chain, as a command with data. -/
def CommandSendBlockchain.toDataCommand (command : CommandSendBlockchain) : DataCommand where
  header := command.header
  dataLen := command.blockchainDataLen
  data := command.blockchainData
  length_data := command.length_data

/-- A command with data, as one that carries a chain. -/
def DataCommand.toSendBlockchain (command : DataCommand) : CommandSendBlockchain where
  header := command.header
  blockchainDataLen := command.dataLen
  blockchainData := command.data
  length_data := command.length_data

/-- The encoder of a command with a chain is the one of a command with data. -/
theorem commandSendBlockchainSerialize_eq (order : ByteOrder) (alloc : Allocator)
    (command : CommandSendBlockchain) :
    commandSendBlockchainSerialize order alloc command =
      (dataCommandSerialize COMMAND_SEND_BLOCKCHAIN order alloc command.toDataCommand).map
        fun r => (r.1, r.2.toSendBlockchain) := by
  rcases command with ⟨header, len, data, hl⟩
  change _ =
    (dataCommandSerialize COMMAND_SEND_BLOCKCHAIN order alloc ⟨header, len, data, hl⟩).map _
  unfold commandSendBlockchainSerialize dataCommandSerialize
  simp only
  by_cases hcode : header.command ≠ COMMAND_SEND_BLOCKCHAIN
  · rw [if_pos hcode, if_pos hcode]
    rfl
  rw [if_neg hcode, if_neg hcode]
  by_cases h0 : ¬ alloc.grants 0 8 = true
  · rw [if_pos h0, if_pos h0]
    rfl
  rw [if_neg h0, if_neg h0]
  -- Both functions go on with one header.
  rcases commandHeaderSerialize order alloc 1 _ with code | headerBuffer
  · rfl
  simp only
  by_cases h2 : ¬ alloc.grants 2 (16 + 8 + len).toNat = true
  · rw [if_pos h2, if_pos h2]
    rfl
  · rw [if_neg h2, if_neg h2]
    rfl

/-- The decoder of a command with a chain is the one of a command with data. -/
theorem commandSendBlockchainDeserialize_eq (order : ByteOrder) (alloc : Allocator) (b : Buffer)
    (s : Cursor) :
    commandSendBlockchainDeserialize order alloc b s =
      ((dataCommandDeserialize COMMAND_SEND_BLOCKCHAIN order alloc b s).1.map
        DataCommand.toSendBlockchain,
        (dataCommandDeserialize COMMAND_SEND_BLOCKCHAIN order alloc b s).2) := by
  change Decoder.bind _ _ s = (Except.map _ (Decoder.bind _ _ s).1, (Decoder.bind _ _ s).2)
  unfold Decoder.bind
  rcases commandHeaderDeserialize order b s with ⟨e | header, s1⟩
  · rfl
  simp only
  by_cases hcode : header.command ≠ COMMAND_SEND_BLOCKCHAIN
  · rw [if_pos hcode, if_pos hcode]
    rfl
  rw [if_neg hcode, if_neg hcode]
  change Decoder.bind _ _ s1 = (Except.map _ (Decoder.bind _ _ s1).1, (Decoder.bind _ _ s1).2)
  unfold Decoder.bind
  rcases readUInt64 order b s1 with ⟨e | len, s2⟩
  · rfl
  simp only
  by_cases hlong : (24 + len).toNat > b.size
  · rw [if_pos hlong, if_pos hlong]
    rfl
  rw [if_neg hlong, if_neg hlong]
  change Decoder.bind _ _ s2 = (Except.map _ (Decoder.bind _ _ s2).1, (Decoder.bind _ _ s2).2)
  unfold Decoder.bind
  rcases (allocate alloc len.toNat ReturnCode.failureCouldNotMalloc : Decoder ReturnCode Unit) s2
    with ⟨e | _, s3⟩
  · rfl
  · rfl

/-- The encoding of a frame is that of a command with data. -/
theorem frameBytes_eq (order : ByteOrder) (header : CommandHeader) (data : SerializationBuffer) :
    frameBytes order header data =
      dataCommandBytes order ⟨header, data.size, data.bytes, data.bytes_length⟩ :=
  frameBytes_split order header data

/-- Whatever the frame encoder returns is the encoding of the frame, with the
    payload size in the header. -/
theorem bytes_of_commandSendBlockchainSerialize (order : ByteOrder) (alloc : Allocator)
    (header : CommandHeader) (data : SerializationBuffer) (bs : List UInt8)
    (command : CommandSendBlockchain)
    (h : commandSendBlockchainSerialize order alloc
      ⟨header, data.size, data.bytes, data.bytes_length⟩ = .ok (bs, command)) :
    header.command = COMMAND_SEND_BLOCKCHAIN ∧ header.commandPrefix = COMMAND_PREFIX ∧
      bs = frameBytes order { header with commandLen := 8 + data.size } data := by
  rw [commandSendBlockchainSerialize_eq] at h
  rcases ok_of_map_ok h with ⟨⟨sendBuf, sent⟩, hser, hpair⟩
  rw [CommandSendBlockchain.toDataCommand] at hser
  rcases bytes_of_dataCommandSerialize _ _ _ _ _ _ hser with ⟨hcode, hfront, rfl, hbytes⟩
  have hbs : sendBuf = bs := congrArg Prod.fst hpair
  rw [← hbs, hbytes]
  exact ⟨hcode, hfront, (frameBytes_eq _ _ _).symm⟩

/-- The frame decoder returns the chain data that lie in the buffer. -/
theorem wp_commandSendBlockchainDeserialize (order : ByteOrder) (alloc : Allocator) (b : Buffer) :
    wp (commandSendBlockchainDeserialize order alloc b) .start
      (fun command _ => command = (dataCommandAt b).toSendBlockchain ∧
        b.bytesAt 0 4 = COMMAND_PREFIX ∧ (commandHeaderAt b).command = COMMAND_SEND_BLOCKCHAIN)
      (fun e s' => DataCommandStop COMMAND_SEND_BLOCKCHAIN alloc b e s') := by
  refine wp_of_map (commandSendBlockchainDeserialize_eq order alloc b .start) ?_
  refine wp_mono (wp_dataCommandDeserialize COMMAND_SEND_BLOCKCHAIN order alloc b) ?_ ?_
  · intro command _ h
    exact ⟨congrArg DataCommand.toSendBlockchain h.1, h.2.1, h.2.2.1⟩
  · exact fun _ _ h => h

/-- A frame whose encoding lies at the beginning of a buffer and ends with it
    is decoded to its data. -/
theorem commandSendBlockchainDeserialize_ok (order encoding : ByteOrder) (alloc : Allocator)
    (b : Buffer) (header : CommandHeader) (data : SerializationBuffer)
    (hcommand : header.command = COMMAND_SEND_BLOCKCHAIN)
    (hfront : header.commandPrefix = COMMAND_PREFIX)
    (hholds : Holds b 0 (frameBytes encoding header data))
    (hsize : b.size = (frameBytes encoding header data).length)
    (halloc : alloc.Grants data.size.toNat) :
    ∃ command, (commandSendBlockchainDeserialize order alloc b .start).1 = .ok command ∧
      command.header = header ∧ command.blockchainData = data.bytes := by
  rw [frameBytes_eq] at hholds hsize
  rw [← data.bytes_length] at halloc
  have hdata := dataCommandDeserialize_ok COMMAND_SEND_BLOCKCHAIN order encoding alloc b
    ⟨header, data.size, data.bytes, data.bytes_length⟩ hfront hcommand hholds
    (Nat.le_of_eq hsize.symm) halloc
  rw [commandSendBlockchainDeserialize_eq, hdata]
  exact ⟨_, rfl, rfl, rfl⟩

/-- The socket address at an offset. -/
def sockaddrAt (b : Buffer) (o : Nat) : SockaddrIn6 where
  sin6Family := UInt16.ofNat (bigEndianValue (slice b.byte o 2))
  sin6Port := UInt16.ofNat (bigEndianValue (slice b.byte (o + 2) 2))
  sin6Flowinfo := UInt32.ofNat (bigEndianValue (slice b.byte (o + 4) 4))
  sin6Addr := b.bytesAt (o + 8) 16
  sin6ScopeId := UInt32.ofNat (bigEndianValue (slice b.byte (o + 24) 4))

/-- An encoded socket address is read back. -/
theorem sockaddrAt_of_holds (b : Buffer) (o : Nat) (addr : SockaddrIn6)
    (h : Holds b o (sockaddrBytes addr)) : sockaddrAt b o = addr := by
  simp only [sockaddrBytes, holds_append, List.length_append, bigEndian_length,
    List.Vector.toList_length] at h
  rcases h with ⟨⟨⟨⟨hfamily, hport⟩, hflow⟩, haddr⟩, hscope⟩
  rw [sockaddrAt, uint16_of_holds b _ _ hfamily, uint16_of_holds b _ _ hport,
    uint32_of_holds b _ _ hflow, bytesAt_of_holds b _ _ _ haddr, uint32_of_holds b _ _ hscope]

/-- The five reads of a socket address return what lies at the cursor, if it
    fits into the buffer. -/
theorem wp_readSockaddr (b : Buffer) (s : Cursor) :
    wp (readSockaddr b) s
      (fun addr s' => addr = sockaddrAt b s.pos ∧ s'.pos = s.pos + 28 ∧ s'.pos ≤ b.size)
      (fun e s' => e = .failureBufferTooSmall ∧ b.size < s.pos + 28 ∧ s.pos ≤ s'.pos ∧
        s'.pos ≤ max b.size s.pos) := by
  -- A comparison fails where the one before let the cursor go.
  have hshort : ∀ n m q, q = s.pos + n → n + m ≤ 28 → n = 0 ∨ q ≤ b.size → b.size < q + m →
      ReturnCode.failureBufferTooSmall = .failureBufferTooSmall ∧ b.size < s.pos + 28 ∧
        s.pos ≤ q ∧ q ≤ max b.size s.pos := by
    intro n m q hq hnm hn hlt
    exact ⟨rfl, by omega, by omega, by omega⟩
  refine wp_bind (wp_readUInt16 ?_ (hshort 0 2 _ rfl (by omega) (Or.inl rfl)))
  intro s1 p1 f1
  refine wp_bind (wp_readUInt16 ?_ (hshort 2 2 _ p1 (by omega) (Or.inr f1)))
  intro s2 p2 f2
  simp only [p1, Nat.add_assoc, Nat.reduceAdd] at p2
  refine wp_bind (wp_readUInt32 ?_ (hshort 4 4 _ p2 (by omega) (Or.inr f2)))
  intro s3 p3 f3
  simp only [p2, Nat.add_assoc, Nat.reduceAdd] at p3
  refine wp_bind (wp_readArray ?_ (hshort 8 16 _ p3 (by omega) (Or.inr f3)))
  intro s4 p4 f4
  simp only [p3, Nat.add_assoc, Nat.reduceAdd] at p4
  refine wp_bind (wp_readUInt32 ?_ (hshort 24 4 _ p4 (by omega) (Or.inr f4)))
  intro s5 p5 f5
  refine wp_pure ⟨?_, by omega, f5⟩
  rw [sockaddrAt, p1, p2, p3, p4]

/-- The request to register a peer at the beginning of a buffer. -/
def commandRegisterPeerAt (b : Buffer) : CommandRegisterPeer :=
  { sockaddrAt b 16 with header := commandHeaderAt b }

/-- The decoder returns the request that lies in the buffer. -/
theorem wp_commandRegisterPeerDeserialize (order : ByteOrder) (b : Buffer) :
    wp (commandRegisterPeerDeserialize order b) .start
      (fun command _ => command = commandRegisterPeerAt b ∧ b.bytesAt 0 4 = COMMAND_PREFIX ∧
        (commandHeaderAt b).command = COMMAND_REGISTER_PEER ∧ 44 ≤ b.size)
      (fun e _ => (b.size < 44 ∧ e = .failureBufferTooSmall) ∨
        (b.bytesAt 0 4 ≠ COMMAND_PREFIX ∧ e = .failureInvalidCommandPrefix) ∨
        ((commandHeaderAt b).command ≠ COMMAND_REGISTER_PEER ∧ e = .failureInvalidCommand)) := by
  refine wp_bind (wp_mono (wp_commandHeaderDeserialize order b) ?_ ?_)
  · rintro header s1 ⟨rfl, hfront, p1, _⟩
    by_cases hcommand : (commandHeaderAt b).command = COMMAND_REGISTER_PEER
    · rw [if_neg (not_not_intro hcommand)]
      refine wp_bind (wp_mono (wp_readSockaddr b s1) ?_ ?_)
      · rintro addr s2 ⟨rfl, p2, f2⟩
        refine wp_pure ⟨?_, hfront, hcommand, by omega⟩
        rw [p1]
        rfl
      · rintro e s2 ⟨rfl, hlt, _⟩
        exact Or.inl ⟨by omega, rfl⟩
    · rw [if_pos hcommand]
      exact wp_fail (Or.inr (Or.inr ⟨hcommand, rfl⟩))
  · rintro e s1 (⟨rfl, hlt⟩ | ⟨rfl, hfront⟩)
    · exact Or.inl ⟨by omega, rfl⟩
    · exact Or.inr (Or.inl ⟨hfront, rfl⟩)

/-- The encoding of a request to register a peer: the header, the address, and
    the padding of the structure. -/
def registerPeerBytes (order : ByteOrder) (command : CommandRegisterPeer) : List UInt8 :=
  headerBytes order command.header ++
    (sockaddrBytes command.toSockaddrIn6 ++ List.replicate 4 0)

theorem registerPeerBytes_length (order : ByteOrder) (command : CommandRegisterPeer) :
    (registerPeerBytes order command).length = sizeofCommandRegisterPeer := by
  rw [registerPeerBytes, List.length_append, List.length_append, headerBytes_length,
    sockaddrBytes_length, List.length_replicate, sizeofCommandRegisterPeer]

/-- The encoder of a request returns its encoding, with the size of the payload
    in the header, if its memory is granted. -/
theorem commandRegisterPeerSerialize_ok (order : ByteOrder) (alloc : Allocator)
    (command : CommandRegisterPeer) (hfront : command.header.commandPrefix = COMMAND_PREFIX)
    (hcode : command.header.command = COMMAND_REGISTER_PEER)
    (halloc : alloc.Grants sizeofCommandRegisterPeer) :
    let sent := { command with header := { command.header with commandLen := 32 } }
    commandRegisterPeerSerialize order alloc command =
      .ok (registerPeerBytes order sent, sent) := by
  have h0 : alloc.grants 0 (sizeofCommandRegisterPeer - sizeofCommandHeader) = true :=
    halloc 0 _ (by decide)
  have h1 : alloc.grants 1 sizeofCommandHeader = true := halloc 1 _ (by decide)
  have h2 : alloc.grants 2 (sizeofCommandHeader +
      (sizeofCommandRegisterPeer - sizeofCommandHeader)) = true := halloc 2 _ (by decide)
  simp only [commandRegisterPeerSerialize, commandHeaderSerialize, hcode, hfront, h0, h1, h2, ne_eq,
    not_true_eq_false, if_false, registerPeerBytes, headerBytes, List.append_assoc]
  rfl

/-- Whatever the encoder of a request returns is its encoding. -/
theorem bytes_of_commandRegisterPeerSerialize (order : ByteOrder) (alloc : Allocator)
    (command sent : CommandRegisterPeer) (bs : List UInt8)
    (h : commandRegisterPeerSerialize order alloc command = .ok (bs, sent)) :
    command.header.command = COMMAND_REGISTER_PEER ∧
      command.header.commandPrefix = COMMAND_PREFIX ∧
      sent = { command with header := { command.header with commandLen := 32 } } ∧
      bs = registerPeerBytes order sent := by
  unfold commandRegisterPeerSerialize at h
  -- Each test the encoder makes must have gone the way of success.
  split at h
  · exact absurd h (by simp only [reduceCtorEq, not_false_eq_true])
  rename_i hcode
  simp only at h
  split at h
  · exact absurd h (by simp only [reduceCtorEq, not_false_eq_true])
  split at h
  · exact absurd h (by simp only [reduceCtorEq, not_false_eq_true])
  rename_i header hheader
  rcases (commandHeaderSerialize_ok_iff _ _ _ _ _).mp hheader with ⟨_, hfront, hbytes⟩
  split at h
  · exact absurd h (by simp only [reduceCtorEq, not_false_eq_true])
  simp only [Except.ok.injEq, Prod.mk.injEq] at h
  rcases h with ⟨rfl, rfl⟩
  refine ⟨not_not.mp hcode, hfront, rfl, ?_⟩
  rw [registerPeerBytes, hbytes, List.append_assoc]

/-- A request whose encoding lies at the beginning of a buffer is decoded. -/
theorem commandRegisterPeerDeserialize_ok (order encoding : ByteOrder) (b : Buffer)
    (command : CommandRegisterPeer) (hfront : command.header.commandPrefix = COMMAND_PREFIX)
    (hcode : command.header.command = COMMAND_REGISTER_PEER)
    (hholds : Holds b 0 (registerPeerBytes encoding command))
    (hsize : sizeofCommandRegisterPeer ≤ b.size) :
    (commandRegisterPeerDeserialize order b .start).1 = .ok command := by
  simp only [registerPeerBytes, holds_append, headerBytes_length, sockaddrBytes_length,
    Nat.zero_add] at hholds
  rcases hholds with ⟨hheader, haddr, _⟩
  have e1 := commandHeaderAt_of_holds b encoding _ hheader
  have e2 := sockaddrAt_of_holds b 16 _ haddr
  unfold sizeofCommandRegisterPeer at hsize
  have hspec := wp_commandRegisterPeerDeserialize order b
  rcases hrun : (commandRegisterPeerDeserialize order b .start).1 with e | command'
  · exfalso
    rcases wp_error hspec hrun with ⟨h, _⟩ | ⟨h, _⟩ | ⟨h, _⟩
    · omega
    · rw [← e1] at hfront
      exact h hfront
    · rw [e1] at h
      exact h hcode
  · rw [(wp_ok hspec hrun).1, commandRegisterPeerAt, e1, e2]

end LeoCoin
