import LeoCoin.Core.Deserialize
import LeoCoin.Core.MineBlocks
import LeoCoin.Core.Serialize

/-!
# Blockchain File

Saving a chain to a file and loading it again.

A file is opened for writing, which makes it empty, written with one call and
closed. The number of bytes that `fwrite` reports is compared with the size of
the buffer. What `fclose` returns is not looked at, so bytes that the call has
accepted can still be missing from the file when the function returns success.
`FileWriting` therefore has the two numbers apart, and a write that a crash
interrupts is one that keeps fewer bytes.

The loader takes the size from the position at the end of the file, which is
−1 if there is none, requests that much memory and reads the file into it. Only
the bytes read are in the buffer; behind them is what the heap has.

The miner saves its chain after every block it has appended, and ignores how
that ends.

## Main definitions

* `Files`: The files by their names.
* `FileWriting`, `FileReading`: What the two functions meet.
* `blockchainWriteToFile`, `blockchainReadFromFile`: The functions.
* `appendedBlockchain`: The chain that a round of the miner saves.
* `SavingRound`, `mineBlocksSavingStep`: The miner together with the files.
-/

namespace LeoCoin

/-- The contents of the files that exist. -/
abbrev Files : Type := String → Option (List UInt8)

/-- The files after one of them was written. -/
def Files.write (files : Files) (name : String) (contents : List UInt8) : Files :=
  fun other => if other = name then some contents else files other

structure FileWriting where
  alloc : Allocator
  /-- Whether `fopen` returns a file, which is empty then. -/
  opened : Bool
  /-- The number of bytes `fwrite` returns. -/
  bytesWritten : Nat
  /-- The number of bytes that are in the file in the end. -/
  kept : Nat

/-- The code returned, and the files after the call. -/
def blockchainWriteToFile (order : ByteOrder) (w : FileWriting) (call : Nat)
    (blockchain : Option Blockchain) (outfile : Option String) (files : Files) :
    Except ReturnCode Unit × Files :=
  match blockchain, outfile with
  | some blockchain, some outfile =>
    match blockchainSerialize order w.alloc call blockchain with
    | .error code => (.error code, files)
    | .ok buffer =>
      if ¬ w.opened then (.error .failureFileIo, files)
      else
        let files := files.write outfile (buffer.bytes.take w.kept)
        if w.bytesWritten ≠ buffer.size.toNat then (.error .failureFileIo, files)
        else (.ok (), files)
  | _, _ => (.error .failureInvalidInput, files)

structure FileReading where
  /-- The request for the buffer. -/
  alloc : Allocator
  /-- The requests of the decoder. -/
  decoderAlloc : Allocator
  /-- Whether `fopen` returns the file, if it exists. -/
  opened : Bool
  /-- What `ftell` returns at the end of the file. -/
  position : Int64
  /-- The number of bytes `fread` returns. -/
  readSize : Nat
  /-- The current time. -/
  now : Int64
  /-- The heap behind what was read. -/
  heap : Nat → UInt8

/-- The chain the caller's pointer is given, or the code returned. -/
def blockchainReadFromFile (order : ByteOrder) (r : FileReading) (infile : Option String)
    (files : Files) : Except ReturnCode Blockchain :=
  match infile with
  | none => .error .failureInvalidInput
  | some infile =>
    match files infile with
    | none => .error .failureFileIo
    | some contents =>
      if ¬ r.opened then .error .failureFileIo
      else
        let bufferSize := r.position.toUInt64.toNat
        if ¬ r.alloc.grants 0 bufferSize then .error .failureCouldNotMalloc
        else if r.readSize ≠ bufferSize then .error .failureFileIo
        else
          let buffer := extend (contents.take r.readSize) r.heap
          (blockchainDeserialize order r.decoderAlloc r.now ⟨buffer, bufferSize⟩ .start).1

/-- A file that can be opened and read whole. -/
structure FileReading.Reads (r : FileReading) (contents : List UInt8) : Prop where
  opened : r.opened = true
  position : r.position.toUInt64.toNat = contents.length
  readSize : r.readSize = contents.length

/-- The chain that a round which was not asked to stop hands to
    `blockchain_write_to_file`, if it comes that far. -/
def appendedBlockchain (host : Host) (args : MineBlocksArgs) (round : MiningRound)
    (blockchain : Blockchain) : Option Blockchain :=
  match switchChain round blockchain with
  | .error _ => none
  | .ok blockchain =>
    match blockchainVerify host blockchain with
    | .ok ⟨true, _⟩ =>
      match prepareNextBlock host args round.conditions blockchain with
      | .error _ => none
      | .ok nextBlock =>
        let result := round.search host args nextBlock
        match result.returnCode with
        | .error _ => none
        | .ok () =>
          match blockchainAddBlock round.conditions.alloc 4 blockchain result.block with
          | .error _ => none
          | .ok blockchain => some blockchain
    | _ => none

/-- A round, and what saving the chain meets in it. -/
structure SavingRound where
  round : MiningRound
  writing : FileWriting

/-- The miner and the files. -/
structure SavingState where
  miner : MinerState
  files : Files

end LeoCoin
