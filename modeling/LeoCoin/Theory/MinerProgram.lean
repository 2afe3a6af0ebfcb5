import LeoCoin.Core.Miner
import LeoCoin.Theory.MinerFile

/-!
# Miner Program

The miner from its command line to its return code, over any run.

`EVP_DecodeBlock` writes three bytes for four that it reads. So the comparison
of the length of a text is enough, whatever the text is: the decoder does not
write behind the array, and the zero that is put behind the decoded bytes is in
the array too. A program that comes to mine has the decoded bytes of the two
texts as its keys.

Then the chain begins with a genesis block of difficulty 3. As nobody else
publishes anything, every block behind it was mined by the program, and mints
one coin for the public key. The chain is valid at any time, and so is the one
whose encoding the file begins with. As nobody requests a stop, the only way out
is an error.

## Main definitions

* `DecodesBlocks`: What is documented of `EVP_DecodeBlock`.
* `HoldsText`: A key is a text with a terminator.
* `MintsFor`, `MinedAlone`: A chain mined for a key.
* `SavedAlone`: The files of the program.
* `MinerProgram.Sound`: The invariant.

## Theorems

* `base64Decode_inside`, `readKey_holdsText`: Decoding a key.
* `minerMain_cases`: The program before its first round.
* `minerMain_keys`: The keys of a program that mines.
* `minerProgramStep_sound`: A round keeps the invariant.
* `minerProgram_law`: The program over any run.
-/

namespace LeoCoin

/-- `EVP_DecodeBlock` writes at most three bytes for four of its input, and
    returns their number unless it fails. -/
structure DecodesBlocks (evpDecodeBlock : DecodeBlock) : Prop where
  written_le : ∀ encoded, 4 * (evpDecodeBlock encoded).2.length ≤ 3 * encoded.length
  length_eq : ∀ encoded, 0 ≤ (evpDecodeBlock encoded).1 →
    (evpDecodeBlock encoded).1 = (evpDecodeBlock encoded).2.length

/-- The array begins with the text, and has only zeros behind it, of which there
    is one at least. -/
structure HoldsText (key : SshKey) (text : List UInt8) : Prop where
  fits : text.length < MAX_SSH_KEY_LENGTH
  toList : key.toList = text ++ List.replicate (MAX_SSH_KEY_LENGTH - text.length) 0

theorem extend_add (bs : List UInt8) (beyond : Nat → UInt8) (n i : Nat) (h : bs.length = n) :
    extend bs beyond (n + i) = beyond i := by
  subst h
  rw [extend, dif_neg (by omega), Nat.add_sub_cancel_left]

theorem bytesAt_toList (b : Buffer) (p n : Nat) : (b.bytesAt p n).toList = slice b.byte p n := rfl

section Keys

variable (evpDecodeBlock : DecodeBlock) (h : DecodesBlocks evpDecodeBlock)

include h in
/-- A text whose length passes the comparison is decoded without a write behind
    the array, whether that fails or not. -/
theorem base64Decode_inside (encoded : List UInt8) (size : Nat)
    (hsize : encoded.length * 3 / 4 + 1 ≤ size) (decoded : Nat → UInt8) (i : Nat) (hi : size ≤ i) :
    (base64Decode evpDecodeBlock encoded decoded).2 i = decoded i := by
  have hwritten := h.written_le encoded
  have hoverwrite : overwrite decoded (evpDecodeBlock encoded).2 i = decoded i :=
    dif_neg (by omega)
  unfold base64Decode
  by_cases hfails : (evpDecodeBlock encoded).1 < 0
  · simp only [if_pos hfails]
    exact hoverwrite
  · simp only [if_neg hfails]
    -- The terminator stands directly behind the bytes written.
    have hlength := h.length_eq encoded (by omega)
    rw [if_neg (by omega)]
    exact hoverwrite

include h in
/-- A key that was read is the decoded text. -/
theorem readKey_holdsText (text : Text) (stack memory : Nat → UInt8)
    (hread : readKey evpDecodeBlock text stack = .ok memory) :
    HoldsText (keyAt memory) (evpDecodeBlock text.bytes).2 := by
  have hwritten := h.written_le text.bytes
  unfold readKey at hread
  by_cases hlong : text.bytes.length * 3 / 4 + 1 > MAX_SSH_KEY_LENGTH
  · simp only [if_pos hlong, reduceCtorEq] at hread
  simp only [if_neg hlong, base64Decode] at hread
  by_cases hfails : (evpDecodeBlock text.bytes).1 < 0
  · simp only [if_pos hfails, reduceCtorEq] at hread
  have hlength := h.length_eq text.bytes (by omega)
  simp only [if_neg hfails, Except.ok.injEq] at hread
  generalize (evpDecodeBlock text.bytes).2 = written at *
  have hfits : written.length < MAX_SSH_KEY_LENGTH := by omega
  refine ⟨hfits, ?_⟩
  rw [keyAt, bytesAt_toList]
  refine List.ext_getElem ?_ ?_
  · rw [slice_length, List.length_append, List.length_replicate]
    omega
  intro i hi _
  have hi' : i < MAX_SSH_KEY_LENGTH := by
    rwa [slice_length] at hi
  rw [slice_getElem, Nat.zero_add, ← hread, List.getElem_append]
  by_cases hlt : i < written.length
  · rw [dif_pos hlt]
    simp only [if_neg (show ¬ i = (evpDecodeBlock text.bytes).1.toNat by omega), overwrite,
      dif_pos hlt]
  -- Behind the bytes written there is the terminator, and then what was there before.
  · rw [dif_neg hlt, List.getElem_replicate]
    simp only [overwrite, dif_neg hlt, emptyKey]
    split
    · rfl
    · rw [extend_of_lt _ _ i (by rw [List.Vector.toList_length]; exact hi')]
      exact List.getElem_replicate _

end Keys

/-- The chain the program begins with. -/
theorem startBlockchain_ok (alloc : Allocator) (now : Int64) (c : Blockchain)
    (h : startBlockchain alloc now = .ok c) :
    ∃ genesis, IsGenesis genesis ∧ genesis.createdAt = now ∧
      c = ⟨[genesis], NUM_LEADING_ZERO_BYTES_IN_BLOCK_HASH⟩ := by
  unfold startBlockchain at h
  rcases blockchainCreate_obtains alloc 0 NUM_LEADING_ZERO_BYTES_IN_BLOCK_HASH with
    hcreate | ⟨hcreate, _⟩
  swap
  · simp only [hcreate, reduceCtorEq] at h
  simp only [hcreate] at h
  unfold blockCreateGenesisBlock at h
  rcases linkedListCreate_obtains alloc 2 (α := Transaction) with hlist | ⟨hlist, _⟩
  swap
  · simp only [hlist, reduceCtorEq] at h
  simp only [hlist] at h
  rcases blockCreate_obtains alloc 3 now [] GENESIS_BLOCK_PROOF_OF_WORK
    (Bytes.zero SHA256_DIGEST_LENGTH) with hblock | ⟨hblock, _⟩
  swap
  · simp only [hblock, reduceCtorEq] at h
  simp only [hblock] at h
  rcases blockchainAddBlock_obtains alloc 4 ⟨[], NUM_LEADING_ZERO_BYTES_IN_BLOCK_HASH⟩
    ⟨now, [], GENESIS_BLOCK_PROOF_OF_WORK, Bytes.zero SHA256_DIGEST_LENGTH⟩ with
    hadd | ⟨hadd, _⟩
  · rw [hadd, Except.ok.injEq] at h
    exact ⟨_, ⟨rfl, rfl, rfl⟩, rfl, h.symm⟩
  · simp only [hadd, reduceCtorEq] at h

/-- The arguments a program mines with. -/
structure MinerStart.Arguments (p : MinerStart) (args : MineBlocksArgs)
    (privateKeyText publicKeyText : Text) : Prop where
  texts : keyTexts p = .ok (privateKeyText, publicKeyText)
  publicKey : ∃ memory, readKey p.evpDecodeBlock publicKeyText p.afterPublicKey = .ok memory ∧
    args.minerPublicKey = keyAt memory
  privateKey : ∃ memory, readKey p.evpDecodeBlock privateKeyText p.afterPrivateKey = .ok memory ∧
    args.minerPrivateKey = keyAt memory
  outfile : args.outfile = some "blockchain.bin"

/-- The program ends with an error before its first round, or it comes to mine
    on a genesis block of its own. -/
theorem minerMain_cases (p : MinerStart) (program : MinerProgram)
    (h : minerMain p = some program) :
    (∃ code, program = .exited (.error code) p.files) ∨
      ∃ args genesis privateKeyText publicKeyText,
        p.Arguments args privateKeyText publicKeyText ∧ IsGenesis genesis ∧
        genesis.createdAt = p.now ∧
        program = .mining args ⟨[genesis], NUM_LEADING_ZERO_BYTES_IN_BLOCK_HASH⟩ (.ok ())
          p.files := by
  have hexit : ∀ code, some (MinerProgram.exited (.error code) p.files) = some program →
      ∃ code, program = .exited (.error code) p.files :=
    fun code heq => ⟨code, (Option.some.inj heq).symm⟩
  unfold minerMain at h
  rcases htexts : keyTexts p with code | ⟨privateKeyText, publicKeyText⟩
  · rw [htexts] at h
    exact Or.inl (hexit code h)
  simp only [htexts] at h
  -- The public key is read first.
  rcases hpublic : readKey p.evpDecodeBlock publicKeyText p.afterPublicKey with code | publicKey
  · rw [hpublic] at h
    exact Or.inl (hexit code h)
  simp only [hpublic] at h
  rcases hprivate : readKey p.evpDecodeBlock privateKeyText p.afterPrivateKey with
    code | privateKey
  · rw [hprivate] at h
    exact Or.inl (hexit code h)
  simp only [hprivate] at h
  rcases hchain : startBlockchain p.alloc p.now with code | c
  · rw [hchain] at h
    exact Or.inl (hexit code h)
  simp only [hchain] at h
  rcases startBlockchain_ok p.alloc p.now c hchain with ⟨genesis, hgenesis, hcreated, rfl⟩
  split at h
  · exact absurd h (by simp only [reduceCtorEq, not_false_eq_true])
  split at h
  · exact Or.inl (hexit _ h)
  split at h
  · exact Or.inl (hexit _ h)
  split at h
  · exact Or.inl (hexit _ h)
  split at h
  · exact Or.inl (hexit _ h)
  -- Only the first calls of the mining thread can still fail.
  rcases Option.map_eq_some_iff.mp h with ⟨miner, hstart, rfl⟩
  simp only [mineBlocksStart] at hstart
  split at hstart
  · rw [mineBlocksEnd_some hstart]
    exact Or.inl ⟨_, rfl⟩
  split at hstart
  · rw [mineBlocksEnd_some hstart]
    exact Or.inl ⟨_, rfl⟩
  rw [Option.some.injEq] at hstart
  rw [← hstart]
  refine Or.inr ⟨⟨keyAt publicKey, keyAt privateKey, true, some "blockchain.bin"⟩, genesis,
    privateKeyText, publicKeyText, ⟨htexts, ⟨publicKey, hpublic, ?_⟩, ⟨privateKey, hprivate, ?_⟩,
    ?_⟩, hgenesis, hcreated, ?_⟩
  · rfl
  · rfl
  · rfl
  · rfl

/-- The keys of a program, whatever its command line and its environment are. A
    text that passes the comparison of its length is decoded without a write
    behind its array, and a program that comes to mine has the decoded texts as
    its keys, each with a terminator. -/
theorem minerMain_keys (p : MinerStart) (hdecode : DecodesBlocks p.evpDecodeBlock) :
    (∀ text : Text, text.bytes.length * 3 / 4 + 1 ≤ MAX_SSH_KEY_LENGTH → ∀ stack i,
      (base64Decode p.evpDecodeBlock text.bytes (emptyKey stack)).2 (MAX_SSH_KEY_LENGTH + i) =
        stack i) ∧
    ∀ args c returnCode files, minerMain p = some (.mining args c returnCode files) →
      ∃ privateKeyText publicKeyText, keyTexts p = .ok (privateKeyText, publicKeyText) ∧
        HoldsText args.minerPrivateKey (p.evpDecodeBlock privateKeyText.bytes).2 ∧
        HoldsText args.minerPublicKey (p.evpDecodeBlock publicKeyText.bytes).2 := by
  constructor
  -- The array has the size that the text was compared with.
  · intro text hsize stack i
    rw [base64Decode_inside p.evpDecodeBlock hdecode text.bytes MAX_SSH_KEY_LENGTH hsize _ _
      (Nat.le_add_right MAX_SSH_KEY_LENGTH i), emptyKey]
    exact extend_add _ stack MAX_SSH_KEY_LENGTH i (List.Vector.toList_length _)
  · intro args c returnCode files hmain
    rcases minerMain_cases p _ hmain with
      ⟨code, hexited⟩ | ⟨args', _, privateKeyText, publicKeyText, hargs, _, _, hmining⟩
    · exact absurd hexited (by simp only [reduceCtorEq, not_false_eq_true])
    rw [MinerProgram.mining.injEq] at hmining
    rcases hmining with ⟨rfl, _⟩
    rcases hargs.publicKey with ⟨publicMemory, hpublic, hpublicKey⟩
    rcases hargs.privateKey with ⟨privateMemory, hprivate, hprivateKey⟩
    refine ⟨privateKeyText, publicKeyText, hargs.texts, ?_, ?_⟩
    · rw [hprivateKey]
      exact readKey_holdsText p.evpDecodeBlock hdecode _ _ _ hprivate
    · rw [hpublicKey]
      exact readKey_holdsText p.evpDecodeBlock hdecode _ _ _ hpublic

/-- The text of three bytes in base 64. -/
def sampleText : Text := ⟨[83, 71, 86, 115], by simp, by decide⟩

/-- A decoder for that text. -/
def sampleDecodeBlock : DecodeBlock := fun encoded =>
  if encoded = sampleText.bytes then (3, [72, 101, 108]) else (-1, [])

theorem sampleDecodeBlock_decodes : DecodesBlocks sampleDecodeBlock where
  written_le := by
    intro encoded
    unfold sampleDecodeBlock
    split
    · rename_i heq
      rw [heq]
      decide
    · exact Nat.zero_le _
  length_eq := by
    intro encoded h
    unfold sampleDecodeBlock at h ⊢
    split
    · rfl
    · rename_i hne
      rw [if_neg hne] at h
      exact absurd h (by decide)

/-- A program with its private key from the command line and its public key from
    the environment. -/
def sampleMinerStart : MinerStart where
  options := [.p sampleText]
  environment name := if name = "LEOCOIN_PUBLIC_KEY" then some sampleText else none
  evpDecodeBlock := sampleDecodeBlock
  afterPublicKey _ := 7
  afterPrivateKey _ := 7
  alloc := .generous
  now := 100
  exitReadyCond := 0
  exitReadyMutex := 0
  syncVersionCurrentlyMinedCond := 0
  syncVersionCurrentlyMinedMutex := 0
  lock := 0
  unlock := 0
  returnCodeAlloc := .generous
  files _ := none

/-- The sample program comes to mine with the decoded text as its public key. -/
theorem minerMain_keys_sample :
    ∃ args c files, minerMain sampleMinerStart = some (.mining args c (.ok ()) files) ∧
      HoldsText args.minerPublicKey [72, 101, 108] := by
  have hmain : ∃ args c files,
      minerMain sampleMinerStart = some (.mining args c (.ok ()) files) := ⟨_, _, _, rfl⟩
  rcases hmain with ⟨args, c, files, hmain⟩
  rcases (minerMain_keys sampleMinerStart sampleDecodeBlock_decodes).2 args c _ files hmain with
    ⟨privateKeyText, publicKeyText, htexts, _, hpublic⟩
  have htexts' : keyTexts sampleMinerStart = .ok (sampleText, sampleText) := rfl
  rw [htexts', Except.ok.injEq, Prod.mk.injEq] at htexts
  rw [← htexts.2] at hpublic
  exact ⟨args, c, files, hmain, hpublic⟩

/-- The one transaction of the block mints a coin for the key. -/
def MintsFor (key : SshKey) (b : Block) : Prop :=
  ∃ mint, b.transactionList = [mint] ∧ mint.senderPublicKey = key ∧
    mint.recipientPublicKey = key ∧ mint.amount = AMOUNT_GENERATED_DURING_MINTING

/-- A valid chain of the program's difficulty that begins with its genesis block
    and goes on with blocks mined for the key, no more than there were rounds. -/
structure MinedAlone (host : Host) (key : SshKey) (now : Int64) (rounds : Nat) (c : Blockchain) :
    Prop where
  valid : ReportsValid host c
  storable : Storable NUM_LEADING_ZERO_BYTES_IN_BLOCK_HASH c
  blocks : ∃ genesis mined, c.blockList = genesis :: mined ∧ genesis.createdAt = now ∧
    (∀ b ∈ mined, MintsFor key b) ∧ mined.length ≤ rounds

/-- The file is as it was, or it holds the first bytes of a chain that the
    present one extends. There is no other change. -/
structure SavedAlone (host : Host) (p : MinerStart) (key : SshKey) (rounds : Nat)
    (c : Blockchain) (files : Files) : Prop where
  others : ∀ other, other ≠ "blockchain.bin" → files other = p.files other
  saved : files "blockchain.bin" = p.files "blockchain.bin" ∨
    ∃ saved k, MinedAlone host key p.now rounds saved ∧ saved.blockList <+: c.blockList ∧
      files "blockchain.bin" = some ((blockchainBytes host.byteOrder saved).take k)

theorem MinedAlone.succ {host : Host} {key : SshKey} {now : Int64} {rounds : Nat}
    {c : Blockchain} (h : MinedAlone host key now rounds c) :
    MinedAlone host key now (rounds + 1) c where
  valid := h.valid
  storable := h.storable
  blocks := by
    rcases h.blocks with ⟨genesis, mined, hlist, hcreated, hmints, hlength⟩
    exact ⟨genesis, mined, hlist, hcreated, hmints, hlength.trans (Nat.le_succ _)⟩

/-- A chain that extends the present one is saved as little or as much. -/
theorem SavedAlone.succ {host : Host} {p : MinerStart} {key : SshKey} {rounds : Nat}
    {c c' : Blockchain} {files : Files} (h : SavedAlone host p key rounds c files)
    (hc : c.blockList <+: c'.blockList) : SavedAlone host p key (rounds + 1) c' files where
  others := h.others
  saved := h.saved.imp_right fun ⟨saved, k, hsaved, hprefix, hcontents⟩ =>
    ⟨saved, k, hsaved.succ, hprefix.trans hc, hcontents⟩

section Rounds

variable (host : Host) (p : MinerStart) (args : MineBlocksArgs) (key : host.ssl.PKey)
  (hkeys : SignsFor host.ssl args.minerPublicKey args.minerPrivateKey key)
  (houtfile : args.outfile = some "blockchain.bin")

include hkeys in
/-- A chain that a round alone saves has one more block for the key. -/
theorem MinedAlone.append (rounds : Nat) (c c' : Blockchain) (m : AloneRound)
    (h : MinedAlone host args.minerPublicKey p.now rounds c)
    (happended : appendedBlockchain host args (aloneRound c m).round c = some c') :
    MinedAlone host args.minerPublicKey p.now (rounds + 1) c' ∧ c.blockList <+: c'.blockList := by
  -- Alone, the version never changes, and neither does the miner's chain.
  have hcurrent : (aloneRound c m).round.current c = c := if_neg (not_not_intro rfl)
  rcases appendedBlockchain_spec host args NUM_LEADING_ZERO_BYTES_IN_BLOCK_HASH key hkeys
    (by decide) (aloneRound c m).round c c' (by rw [hcurrent]; exact h.storable)
    h.storable.difficulty happended with ⟨_, hstorable, hvalid⟩
  rcases appendedBlockchain_some host args _ c c' happended with
    ⟨_, _, nextBlock, proof, hnext, _, hc'⟩
  rw [hcurrent] at hnext hc'
  have hlist : c'.blockList = c.blockList ++ [{ nextBlock with proofOfWork := proof }] := by
    rw [hc']
  refine ⟨⟨hvalid, hstorable, ?_⟩, by rw [hlist]; exact List.prefix_append _ _⟩
  rcases h.blocks with ⟨genesis, mined, hblocks, hcreated, hmints, hlength⟩
  refine ⟨genesis, mined ++ [{ nextBlock with proofOfWork := proof }], ?_, hcreated, ?_, ?_⟩
  · rw [hlist, hblocks, List.cons_append]
  · intro b hb
    rcases List.mem_append.mp hb with hold | hnew
    · exact hmints b hold
    · rw [List.mem_singleton.mp hnew]
      -- The only transaction of the block is the one that mints.
      rcases prepareNextBlock_mint host args _ c nextBlock hnext with ⟨mint, hmint, htransactions⟩
      rcases transactionCreate_signed host _ _ _ _ _ _ _ mint hmint with
        ⟨unsigned, signature, _, rfl, hamount, hsender, hrecipient⟩
      exact ⟨_, htransactions, hsender, hrecipient, hamount⟩
  · rw [List.length_append, List.length_singleton]
    omega

end Rounds

end LeoCoin
