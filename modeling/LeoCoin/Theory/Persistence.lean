import LeoCoin.Core.BlockchainFile
import LeoCoin.Theory.CutEncoding

/-!
# Persistence

What can be loaded from a file that a chain was saved to.

The file is emptied, written and closed, without a copy of what it held and
without a look at what was kept. So it matters what a file that ends early is
taken for. If more than part of the last signature array is missing, it is
refused. Otherwise it is taken for a chain that differs from the one that was
saved in its last block only.

## Theorems

* `blockchainWriteToFile_cases`: What a write leaves.
* `blockchainReadFromFile_whole`: A file that is read whole.
* `blockchainReadFromFile_kept`: What is loaded from what was kept.
* `saved_then_loaded`: What is loaded after a write.
-/

namespace LeoCoin

@[simp]
theorem Files.write_self (files : Files) (name : String) (contents : List UInt8) :
    files.write name contents name = some contents := if_pos rfl

theorem Files.write_other (files : Files) (name other : String) (contents : List UInt8)
    (h : other ≠ name) : files.write name contents other = files other := if_neg h

/-- A write that fails before the file is open leaves the files as they were.
    Any other leaves the first bytes of the encoding, and returns success
    exactly if `fwrite` reports all of them. -/
theorem blockchainWriteToFile_cases (order : ByteOrder) (w : FileWriting) (call : Nat)
    (c : Blockchain) (name : String) (files : Files) :
    ((∃ code, blockchainWriteToFile order w call (some c) (some name) files =
        (.error code, files)) ∧
      (w.opened = true → ¬ w.alloc.Grants (blockchainBytes order c).length)) ∨
    ((blockchainWriteToFile order w call (some c) (some name) files).2 =
        files.write name ((blockchainBytes order c).take w.kept) ∧
      ((blockchainWriteToFile order w call (some c) (some name) files).1 = .ok () ↔
        w.bytesWritten = (blockchainBytes order c).length) ∧
      (blockchainBytes order c).length ≤ PTRDIFF_MAX) := by
  simp only [blockchainWriteToFile]
  rcases hser : blockchainSerialize order w.alloc call c with code | buffer
  · refine Or.inl ⟨⟨code, rfl⟩, fun _ hm => ?_⟩
    rcases blockchainSerialize_ok order w.alloc call c hm with ⟨buffer, hok, _⟩
    exact absurd (hser.symm.trans hok) (by simp only [reduceCtorEq, not_false_eq_true])
  have hbytes := bytes_of_blockchainSerialize order w.alloc call c buffer hser
  have hsize : buffer.size.toNat = (blockchainBytes order c).length := by
    rw [← hbytes, buffer.bytes_length]
  simp only [hsize, hbytes]
  by_cases hopened : w.opened = true
  · rw [if_neg (not_not_intro hopened)]
    refine Or.inr ?_
    have hmax := hsize ▸ buffer.size_le
    by_cases hwritten : w.bytesWritten = (blockchainBytes order c).length
    · rw [if_neg (not_not_intro hwritten)]
      exact ⟨rfl, iff_of_true rfl hwritten, hmax⟩
    · rw [if_pos hwritten]
      exact ⟨rfl, iff_of_false (by simp only [reduceCtorEq, not_false_eq_true]) hwritten, hmax⟩
  · rw [if_pos hopened]
    exact Or.inl ⟨⟨_, rfl⟩, fun h => absurd h hopened⟩

/-- A file that is read whole is decoded from its contents. -/
theorem blockchainReadFromFile_whole (order : ByteOrder) (r : FileReading) (name : String)
    (files : Files) (contents : List UInt8) (hfile : files name = some contents)
    (hreads : r.Reads contents) (hbuffer : r.alloc.Grants contents.length) :
    blockchainReadFromFile order r (some name) files =
      (blockchainDeserialize order r.decoderAlloc r.now (Buffer.ofBytes contents r.heap)
        .start).1 := by
  rw [blockchainReadFromFile, hfile]
  simp only [hreads.opened, not_true_eq_false, if_false, hreads.position, hreads.readSize,
    hbuffer 0 contents.length (Nat.le_refl _), ne_eq, List.take_length, Buffer.ofBytes]

/-- What is loaded from a file that holds the first bytes of an encoding. -/
theorem blockchainReadFromFile_kept (order encoding : ByteOrder) (c : Blockchain) (name : String)
    (files : Files) (r : FileReading) (k : Nat) (hlen : LengthsAdmitted c.blockList)
    (hfile : files name = some ((blockchainBytes encoding c).take k))
    (hreads : r.Reads ((blockchainBytes encoding c).take k))
    (hbuffer : r.alloc.Grants (blockchainBytes encoding c).length)
    (hdecoder : r.decoderAlloc.Grants sizeofTransaction) :
    (min k (blockchainBytes encoding c).length < neededSize c →
      blockchainReadFromFile order r (some name) files = .error .failureBufferTooSmall) ∧
    (neededSize c ≤ min k (blockchainBytes encoding c).length →
      ∃ c', blockchainReadFromFile order r (some name) files = .ok c' ∧
        blockchainBytes encoding c' = (blockchainBytes encoding c).take k ++
          slice r.heap 0 ((blockchainBytes encoding c).length - k) ∧
        c'.numLeadingZeroBytesRequiredInBlockHash = c.numLeadingZeroBytesRequiredInBlockHash ∧
        c'.blockList.dropLast = c.blockList.dropLast) ∧
    (SignaturesFit c → (blockchainBytes encoding c).length ≤ k →
      blockchainReadFromFile order r (some name) files = .ok c) := by
  rw [blockchainReadFromFile_whole order r name files _ hfile hreads (hbuffer.mono (by
    rw [List.length_take]
    exact Nat.min_le_right _ _))]
  -- What is there is the beginning of that length.
  have hcut := blockchainDeserialize_cut order encoding r.decoderAlloc r.now c
    (min k (blockchainBytes encoding c).length) r.heap hlen hdecoder hbuffer.le_max
    (Nat.min_le_right _ _)
  have htake : (blockchainBytes encoding c).take (min k (blockchainBytes encoding c).length) =
      (blockchainBytes encoding c).take k := by
    rw [← List.take_take, List.take_length]
  have hmissing : (blockchainBytes encoding c).length -
      min k (blockchainBytes encoding c).length = (blockchainBytes encoding c).length - k := by
    omega
  rw [htake, hmissing] at hcut
  refine ⟨hcut.1, hcut.2, ?_⟩
  intro hsig hkept
  rw [List.take_of_length_le hkept]
  exact blockchainDeserialize_ok order encoding r.decoderAlloc r.now _ c rfl hbuffer.le_max
    (holds_ofBytes _ r.heap) hsig hdecoder

/-- Saving a chain and loading it. Nothing but the named file changes. With
    fewer bytes kept than are compared for, the file is refused. With more, it
    is loaded, and the chain loaded is encoded by the bytes kept and the memory
    behind them; it has the difficulty and all blocks but the last of the chain
    saved. At most 512 bytes can be missing then. A chain whose signatures fit
    is loaded as it was saved if nothing is missing. -/
theorem saved_then_loaded (order encoding : ByteOrder) (w : FileWriting) (call : Nat)
    (c : Blockchain) (name : String) (files : Files) (r : FileReading)
    (hlen : LengthsAdmitted c.blockList) (hopened : w.opened = true)
    (hencoder : w.alloc.Grants (blockchainBytes encoding c).length)
    (hreads : r.Reads ((blockchainBytes encoding c).take w.kept))
    (hbuffer : r.alloc.Grants (blockchainBytes encoding c).length)
    (hdecoder : r.decoderAlloc.Grants sizeofTransaction) :
    ∃ code files', blockchainWriteToFile encoding w call (some c) (some name) files =
        (code, files') ∧
      (code = .ok () ↔ w.bytesWritten = (blockchainBytes encoding c).length) ∧
      (∀ other, other ≠ name → files' other = files other) ∧
      (min w.kept (blockchainBytes encoding c).length < neededSize c →
        blockchainReadFromFile order r (some name) files' = .error .failureBufferTooSmall) ∧
      (neededSize c ≤ min w.kept (blockchainBytes encoding c).length →
        ∃ c', blockchainReadFromFile order r (some name) files' = .ok c' ∧
          blockchainBytes encoding c' = (blockchainBytes encoding c).take w.kept ++
            slice r.heap 0 ((blockchainBytes encoding c).length - w.kept) ∧
          c'.numLeadingZeroBytesRequiredInBlockHash = c.numLeadingZeroBytesRequiredInBlockHash ∧
          c'.blockList.dropLast = c.blockList.dropLast) ∧
      (blockchainBytes encoding c).length ≤ neededSize c + 512 ∧
      (SignaturesFit c → (blockchainBytes encoding c).length ≤ w.kept →
        blockchainReadFromFile order r (some name) files' = .ok c) := by
  rcases blockchainWriteToFile_cases encoding w call c name files with
    ⟨_, hrefused⟩ | ⟨hfiles, hcode, _⟩
  · exact absurd hencoder (hrefused hopened)
  rcases hwrite : blockchainWriteToFile encoding w call (some c) (some name) files with
    ⟨code, files'⟩
  rw [hwrite] at hfiles hcode
  simp only at hfiles hcode
  refine ⟨code, files', rfl, hcode, ?_, ?_⟩
  · intro other hother
    rw [hfiles, Files.write_other _ _ _ _ hother]
  rcases blockchainReadFromFile_kept order encoding c name files' r w.kept hlen
    (by rw [hfiles, Files.write_self]) hreads hbuffer hdecoder with ⟨hrefused, hloaded, hwhole⟩
  exact ⟨hrefused, hloaded, le_neededSize encoding c, hwhole⟩

/-- A file of which one byte less is kept than is compared for. -/
def sampleWriting : FileWriting where
  alloc := .generous
  opened := true
  bytesWritten := 8856
  kept := 8599

def sampleReading : FileReading where
  alloc := .generous
  decoderAlloc := .generous
  opened := true
  position := 8599
  readSize := 8599
  now := 0
  heap _ := 7

/-- The sample chain is saved, with success, and refused when it is loaded. -/
theorem saved_then_loaded_sample :
    ∃ files, blockchainWriteToFile .little sampleWriting 0
        (some ⟨[sampleGenesis, sampleSuccessor sampleGenesis], 2⟩) (some "chain")
        (fun _ => none) = (.ok (), files) ∧
      blockchainReadFromFile .little sampleReading (some "chain") files =
        .error .failureBufferTooSmall := by
  have htotal : (blockchainBytes .little
      ⟨[sampleGenesis, sampleSuccessor sampleGenesis], 2⟩).length = 8856 := by
    rw [blockchainBytes_length]
    rfl
  have hkept : ((blockchainBytes .little
      ⟨[sampleGenesis, sampleSuccessor sampleGenesis], 2⟩).take sampleWriting.kept).length =
        8599 := by
    rw [List.length_take, htotal]
    rfl
  rcases saved_then_loaded .little .little sampleWriting 0
    ⟨[sampleGenesis, sampleSuccessor sampleGenesis], 2⟩ "chain" (fun _ => none) sampleReading
    (signaturesFit_sample 2).lengthsAdmitted rfl
    (by rw [htotal]; exact Allocator.generous_grants _ (by decide))
    ⟨rfl, by rw [hkept]; rfl, by rw [hkept]; rfl⟩
    (by rw [htotal]; exact Allocator.generous_grants _ (by decide))
    (Allocator.generous_grants _ (by decide)) with ⟨code, files, hwrite, hcode, _, hrefused, _⟩
  rw [htotal] at hcode hrefused
  refine ⟨files, ?_, hrefused (by decide)⟩
  rw [hwrite, hcode.mpr rfl]

end LeoCoin
