import LeoCoin.Core.BlockchainFile

/-!
# Miner

The miner as a program, from its command line to its return code.

The program takes two keys from its options or else from its environment, both
in base 64, and decodes them into arrays on its stack. The length of a text is
compared with the array before it is decoded. Then it creates a chain with a
genesis block and mines on it. There is no other thread, so nobody requests it
to stop, and nobody publishes another chain: `aloneRound` is a round of the
mining function under these circumstances.

`getopt` and `getenv` are given by what they return, and `EVP_DecodeBlock` is a
function of OpenSSL. The memory for the published chain is not checked, and the
return values of the functions that initialize the mutex and the condition
variables are the return code if they are not zero.

What is printed is not part of the state.

## Main definitions

* `Text`: A string with its terminator left out.
* `MinerOption`, `MinerStart`: What the program is started with.
* `base64Decode`, `readKey`: Decoding a key.
* `parseOptions`, `keyTexts`: Where the keys come from.
* `startBlockchain`: The chain the program begins with.
* `minerMain`: The program up to the loop of the mining function.
* `aloneRound`, `minerProgramStep`: The loop.
-/

namespace LeoCoin

/-- A string, without the zero it ends with. It lies in the address space of a
    process. -/
structure Text where
  bytes : List UInt8
  nonzero : ∀ byte ∈ bytes, byte ≠ 0
  addressable : bytes.length < 2 ^ 47

/-- The options as `getopt` reports them. -/
inductive MinerOption where
  | p (optarg : Text)
  | k (optarg : Text)
  | other

/-- What `EVP_DecodeBlock` returns, and the bytes it writes. -/
abbrev DecodeBlock : Type := List UInt8 → Int × List UInt8

structure MinerStart where
  options : List MinerOption
  /-- What `getenv` returns. -/
  environment : String → Option Text
  evpDecodeBlock : DecodeBlock
  /-- The stack behind the arrays for the keys. -/
  afterPublicKey : Nat → UInt8
  afterPrivateKey : Nat → UInt8
  alloc : Allocator
  /-- The time at which the genesis block is created. -/
  now : Int64
  /-- What the functions return that initialize the condition variables and
      mutexes, in the order of the calls. -/
  exitReadyCond : Nat
  exitReadyMutex : Nat
  syncVersionCurrentlyMinedCond : Nat
  syncVersionCurrentlyMinedMutex : Nat
  /-- What the mutex functions return around the first read of the chain. -/
  lock : Nat
  unlock : Nat
  /-- The request for the return code, if the mining function ends at once. -/
  returnCodeAlloc : Allocator
  files : Files

/-- Memory after some bytes were written to its beginning. -/
def overwrite (memory : Nat → UInt8) (bytes : List UInt8) : Nat → UInt8 :=
  fun i => if h : i < bytes.length then bytes[i] else memory i

/-- The code returned, and the memory from `decoded` on. No caller passes a null
    pointer. -/
def base64Decode (evpDecodeBlock : DecodeBlock) (encoded : List UInt8) (decoded : Nat → UInt8) :
    Except ReturnCode Unit × (Nat → UInt8) :=
  let decodedLength := (evpDecodeBlock encoded).1
  let decoded := overwrite decoded (evpDecodeBlock encoded).2
  if decodedLength < 0 then (.error .failureOpensslFunction, decoded)
  else (.ok (), fun i => if i = decodedLength.toNat then 0 else decoded i)

/-- An array for a key with nothing in it, and the stack behind it. -/
def emptyKey (stack : Nat → UInt8) : Nat → UInt8 :=
  extend (Bytes.zero MAX_SSH_KEY_LENGTH).toList stack

/-- The array after a text was decoded into it. The comparison does not round,
    as the division is one of integers. -/
def readKey (evpDecodeBlock : DecodeBlock) (text : Text) (stack : Nat → UInt8) :
    Except ReturnCode (Nat → UInt8) :=
  let decodedLength := text.bytes.length * 3 / 4 + 1
  if decodedLength > MAX_SSH_KEY_LENGTH then .error .failureInvalidCommandLineArgs
  else match base64Decode evpDecodeBlock text.bytes (emptyKey stack) with
  | (.error code, _) => .error code
  | (.ok (), memory) => .ok memory

/-- The key in an array. -/
def keyAt (memory : Nat → UInt8) : SshKey := (⟨memory, MAX_SSH_KEY_LENGTH⟩ : Buffer).bytesAt 0 _

/-- The texts of the private and the public key after the options were read. A
    later option replaces an earlier one. -/
def parseOptions : List MinerOption → Option Text → Option Text →
    Except ReturnCode (Option Text × Option Text)
  | [], privateKey, publicKey => .ok (privateKey, publicKey)
  | .p optarg :: rest, _, publicKey => parseOptions rest (some optarg) publicKey
  | .k optarg :: rest, privateKey, _ => parseOptions rest privateKey (some optarg)
  | .other :: _, _, _ => .error .failureInvalidCommandLineArgs

/-- The texts of the keys. An option comes before the environment. -/
def keyTexts (p : MinerStart) : Except ReturnCode (Text × Text) :=
  match parseOptions p.options none none with
  | .error code => .error code
  | .ok (privateKey, publicKey) =>
    match privateKey <|> p.environment "LEOCOIN_PRIVATE_KEY",
      publicKey <|> p.environment "LEOCOIN_PUBLIC_KEY" with
    | some privateKey, some publicKey => .ok (privateKey, publicKey)
    | _, _ => .error .failureInvalidCommandLineArgs

def NUM_LEADING_ZERO_BYTES_IN_BLOCK_HASH : UInt64 := 3

/-- A chain with a genesis block, in five requests. -/
def startBlockchain (alloc : Allocator) (now : Int64) : Except ReturnCode Blockchain :=
  match blockchainCreate alloc 0 NUM_LEADING_ZERO_BYTES_IN_BLOCK_HASH with
  | .error code => .error code
  | .ok blockchain =>
    match blockCreateGenesisBlock alloc 2 now with
    | .error code => .error code
    | .ok genesisBlock => blockchainAddBlock alloc 4 blockchain genesisBlock

/-- The size of the structure, with a mutex as its last member. -/
def sizeofSynchronizedBlockchain : Nat := 56

/-- The program in the loop of the mining function, or ended. -/
inductive MinerProgram where
  | mining (args : MineBlocksArgs) (blockchain : Blockchain) (returnCode : Except ReturnCode Unit)
      (files : Files)
  | exited (returnCode : Except ReturnCode Unit) (files : Files)

/-- The program returns what the mining function returns. -/
def MinerProgram.ofState (args : MineBlocksArgs) (s : SavingState) : MinerProgram :=
  match s.miner with
  | .mining blockchain returnCode => .mining args blockchain returnCode s.files
  | .returned result => .exited result.returnCode s.files

def minerMain (p : MinerStart) : Option MinerProgram :=
  match keyTexts p with
  | .error code => some (.exited (.error code) p.files)
  | .ok (privateKeyText, publicKeyText) =>
    match readKey p.evpDecodeBlock publicKeyText p.afterPublicKey with
    | .error code => some (.exited (.error code) p.files)
    | .ok publicKey =>
      match readKey p.evpDecodeBlock privateKeyText p.afterPrivateKey with
      | .error code => some (.exited (.error code) p.files)
      | .ok privateKey =>
        match startBlockchain p.alloc p.now with
        | .error code => some (.exited (.error code) p.files)
        | .ok blockchain =>
          -- The pointer is not checked before the chain is written through it.
          if ¬ p.alloc.grants 5 sizeofSynchronizedBlockchain then none
          else if p.exitReadyCond ≠ 0 then
            some (.exited (.error (.errno p.exitReadyCond)) p.files)
          else if p.exitReadyMutex ≠ 0 then
            some (.exited (.error (.errno p.exitReadyMutex)) p.files)
          else if p.syncVersionCurrentlyMinedCond ≠ 0 then
            some (.exited (.error (.errno p.syncVersionCurrentlyMinedCond)) p.files)
          else if p.syncVersionCurrentlyMinedMutex ≠ 0 then
            some (.exited (.error (.errno p.syncVersionCurrentlyMinedMutex)) p.files)
          else
            let args : MineBlocksArgs :=
              { minerPublicKey := keyAt publicKey
                minerPrivateKey := keyAt privateKey
                printProgress := true
                outfile := some "blockchain.bin" }
            (mineBlocksStart p.returnCodeAlloc (some args) p.lock p.unlock blockchain).map
              fun miner => .ofState args ⟨miner, p.files⟩

/-- What a round meets if there is no other thread. -/
structure AloneRound where
  alloc : Allocator
  transactionTime : Int64
  blockTime : Int64
  lock : Nat
  unlock : Nat
  writing : FileWriting

/-- Nobody requests a stop, the version is that of the start, and the published
    chain is the one the miner works on. -/
def aloneRound (blockchain : Blockchain) (m : AloneRound) : SavingRound where
  round :=
    { shouldStop := false
      syncVersionCurrentlyMined := 0
      syncVersion := 0
      switchLock := 0
      switchUnlock := 0
      switchBlockchain := blockchain
      signalLock := 0
      signalUnlock := 0
      sync := ⟨blockchain, 0⟩
      conditions :=
        { alloc := m.alloc
          transactionTime := m.transactionTime
          blockTime := m.blockTime
          lock := m.lock
          unlock := m.unlock
          readings := ⟨fun _ => false, fun _ => 0, fun _ => 0⟩ } }
  writing := m.writing

end LeoCoin
