import LeoCoin.Core.MiningThread
import LeoCoin.Core.OwnedConsensus

/-!
# Owned Mining

An iteration of the mining loop with every allocation and every release.

The miner builds its block from the inside out: a list, a transaction, a node
and the block. Every exit behind one of these releases what there is so far,
with one exception. A transaction that cannot be signed is not released, because
the function that creates it returns without a pointer to it.

## Main definitions

* `OnHeap.transactionCreate`: A transaction, signed or left behind.
* `OnHeap.prepareNextBlock`: The block that is going to be mined.
* `OnHeap.mineBlocksIteration`: One iteration.
-/

namespace LeoCoin

namespace OnHeap

section Objects

variable {α : Type} (alloc : Allocator) (call : Nat)

/-- An empty list, by an allocation that was counted before. -/
def linkedListCreateAt : EStateM ReturnCode Ledger (OwnedList α) := fun l =>
  if alloc.grants call sizeofLinkedList then .ok ⟨l.malloc.1, []⟩ l.malloc.2
  else .error .failureCouldNotMalloc l

def linkedListPrepend (list : OwnedList α) (data : α) :
    EStateM ReturnCode Ledger (OwnedList α) := fun l =>
  if alloc.grants call sizeofNode then
    .ok { list with nodes := ⟨l.malloc.1, data⟩ :: list.nodes } l.malloc.2
  else .error .failureCouldNotMalloc l

def linkedListAppendAt (list : OwnedList α) (data : α) :
    EStateM ReturnCode Ledger (OwnedList α) := fun l =>
  if alloc.grants call sizeofNode then
    .ok { list with nodes := list.nodes ++ [⟨l.malloc.1, data⟩] } l.malloc.2
  else .error .failureCouldNotMalloc l

def blockCreate (now : Int64) (transactionList : OwnedList (Allocated Transaction))
    (proofOfWork : UInt64) (previousBlockHash : Sha256) :
    EStateM ReturnCode Ledger OwnedBlock := fun l =>
  if alloc.grants call sizeofBlock then
    .ok ⟨l.malloc.1, now, transactionList, proofOfWork, previousBlockHash⟩ l.malloc.2
  else .error .failureCouldNotMalloc l

/-- A transaction that cannot be signed stays allocated. -/
def transactionCreate (host : Host) (now : Int64) (senderPublicKey recipientPublicKey : SshKey)
    (amount : UInt64) (senderPrivateKey : SshKey) :
    EStateM ReturnCode Ledger (Allocated Transaction) := fun l =>
  if ¬ alloc.grants call sizeofTransaction then .error .failureCouldNotMalloc l
  else
    let newTransaction : Transaction :=
      { createdAt := now
        senderPublicKey := senderPublicKey
        recipientPublicKey := recipientPublicKey
        amount := amount
        senderSignature := { length := 0, bytes := Bytes.zero MAX_SSH_SIGNATURE_LENGTH } }
    match transactionGenerateSignature host newTransaction senderPrivateKey with
    | .error code => .error code l.malloc.2
    | .ok signature =>
      .ok ⟨l.malloc.1, { newTransaction with senderSignature := signature }⟩ l.malloc.2

end Objects

section Mining

variable (host : Host) (args : MineBlocksArgs) (m : MiningConditions)

def prepareNextBlock (blockchain : Blockchain) : EStateM ReturnCode Ledger OwnedBlock := fun l =>
  match linkedListGetLast blockchain.blockList with
  | .error code => .error code l
  | .ok previousBlock =>
    let previousBlockHash := blockHash host previousBlock
    match linkedListCreateAt m.alloc 0 l with
    | .error code l => .error code l
    | .ok transactionList l =>
      match transactionCreate m.alloc 1 host m.transactionTime args.minerPublicKey
          args.minerPublicKey AMOUNT_GENERATED_DURING_MINTING args.minerPrivateKey l with
      | .error code l => .error code (linkedListDestroy transactionDestroy transactionList l)
      | .ok mintCoinTransaction l =>
        match linkedListPrepend m.alloc 2 transactionList mintCoinTransaction l with
        | .error code l => .error code (linkedListDestroy transactionDestroy transactionList
            (transactionDestroy mintCoinTransaction l))
        | .ok transactionList l =>
          match blockCreate m.alloc 3 m.blockTime transactionList 0 previousBlockHash l with
          | .error code l => .error code (linkedListDestroy transactionDestroy transactionList l)
          | .ok nextBlock l => .ok nextBlock l

/-- How an iteration ends, the published chain, and the heap. -/
def mineBlocksIteration (sync : OwnedSync) (l : Ledger) :
    Option (Except ReturnCode Unit × OwnedSync × Ledger) :=
  match blockchainVerify host sync.blockchain.blockchain with
  | .error code => some (.error code, sync, l)
  | .ok ⟨false, none⟩ => none
  | .ok ⟨false, some _⟩ => some (.error .failureInvalidBlockchain, sync, l)
  | .ok ⟨true, _⟩ =>
    match prepareNextBlock host args m sync.blockchain.blockchain l with
    | .error code l => some (.error code, sync, l)
    | .ok nextBlock l =>
      let result := synchronizedBlockchainMineBlock host sync.sync m.lock m.unlock
        nextBlock.block args.printProgress m.readings
      match result.returnCode with
      | .error code => some (.error code, sync, blockDestroy nextBlock l)
      | .ok () =>
        -- The search has left its nonce in the block.
        let nextBlock := { nextBlock with proofOfWork := result.block.proofOfWork }
        match linkedListAppendAt m.alloc 4 sync.blockchain.blockList nextBlock l with
        | .error code l => some (.error code, sync, blockDestroy nextBlock l)
        | .ok blockList l =>
          some (.ok (), { sync with blockchain := { sync.blockchain with blockList := blockList } },
            l)

end Mining

end OnHeap

end LeoCoin
