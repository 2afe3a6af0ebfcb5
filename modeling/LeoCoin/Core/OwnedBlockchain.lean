import LeoCoin.Core.Deserialize
import LeoCoin.Core.PeerDiscovery
import LeoCoin.Library.OwningDecoder

/-!
# Owned Blockchain

Chains and lists of peers as objects on the heap, and who releases them.

A list is an object, and so is each of its nodes and whatever a node points to.
The functions that destroy something release all the objects it consists of, by
way of the free function of each list. Here the objects carry the names that the
allocations gave them.

The two decoders are given once more, with every allocation they make and every
release in front of a jump to the end. The members are read by the decoders of
single fields as before. What is released depends on where a decoder fails: the
chain so far, the transactions of the block so far, and the transaction that is
being read.

## Main definitions

* `Allocated`, `OwnedList`, `OwnedBlock`, `OwnedBlockchain`: Objects on the heap.
* `OnHeap.linkedListDestroy`, `OnHeap.blockDestroy`, `OnHeap.blockchainDestroy`:
  What releases them.
* `OnHeap.blockchainDeserialize`, `OnHeap.peerInfoListDeserialize`: The decoders.
-/

namespace LeoCoin

open Decoder Owning

/-- An object on the heap. -/
structure Allocated (α : Type) where
  name : Nat
  data : α

/-- A list and its nodes, with what they point to. -/
structure OwnedList (α : Type) where
  name : Nat
  nodes : List (Allocated α)

structure OwnedBlock where
  name : Nat
  createdAt : Int64
  transactionList : OwnedList (Allocated Transaction)
  proofOfWork : UInt64
  previousBlockHash : Sha256

structure OwnedBlockchain where
  name : Nat
  blockList : OwnedList OwnedBlock
  numLeadingZeroBytesRequiredInBlockHash : UInt64

/-- What the nodes of a list point to. -/
def OwnedList.contents {α : Type} (list : OwnedList α) : List α := list.nodes.map Allocated.data

def OwnedBlock.block (b : OwnedBlock) : Block where
  createdAt := b.createdAt
  transactionList := b.transactionList.contents.map Allocated.data
  proofOfWork := b.proofOfWork
  previousBlockHash := b.previousBlockHash

def OwnedBlockchain.blockchain (c : OwnedBlockchain) : Blockchain where
  blockList := c.blockList.contents.map OwnedBlock.block
  numLeadingZeroBytesRequiredInBlockHash := c.numLeadingZeroBytesRequiredInBlockHash

/-- The fields of a transaction, each behind its comparison. -/
def readTransaction (order : ByteOrder) (buffer : Buffer) : Decoder ReturnCode Transaction := do
  let createdAt ← readUInt64 order buffer
  let senderPublicKey ← readArray buffer MAX_SSH_KEY_LENGTH
  let recipientPublicKey ← readArray buffer MAX_SSH_KEY_LENGTH
  let amount ← readUInt64 order buffer
  let length ← readUInt64 order buffer
  if length.toNat > MAX_SSH_KEY_LENGTH then fail .failureSignatureTooLong
  else do
    -- The comparison is for the length, and the read for the array.
    checkRead buffer length.toNat .failureBufferTooSmall
    let bytes ← readBytes buffer MAX_SSH_SIGNATURE_LENGTH
    pure
      { createdAt := createdAt.toInt64
        senderPublicKey := senderPublicKey
        recipientPublicKey := recipientPublicKey
        amount := amount
        senderSignature := { length := length, bytes := bytes } }

/-- The fields of a block before its transactions. -/
structure BlockFields where
  blockCreatedAt : UInt64
  previousBlockHash : Sha256
  proofOfWork : UInt64
  numTransactions : UInt64

def readBlockFields (order : ByteOrder) (buffer : Buffer) : Decoder ReturnCode BlockFields := do
  let blockCreatedAt ← readUInt64 order buffer
  let previousBlockHash ← readArray buffer SHA256_DIGEST_LENGTH
  let proofOfWork ← readUInt64 order buffer
  let numTransactions ← readUInt64 order buffer
  pure ⟨blockCreatedAt, previousBlockHash, proofOfWork, numTransactions⟩

/-- The fields of a peer. -/
def readPeerInfo (order : ByteOrder) (buffer : Buffer) : Decoder ReturnCode PeerInfo := do
  let listenAddr ← readSockaddr buffer
  let lastConnected ← readUInt64 order buffer
  pure { listenAddr := listenAddr, lastConnected := lastConnected.toInt64 }

namespace OnHeap

section Lists

variable {α : Type}

/-- The first node is taken out by now. -/
def linkedListRemoveFirst (freeFunction : α → Ledger → Ledger) (first : Allocated α) (l : Ledger) :
    Ledger := (freeFunction first.data l).free first.name

def linkedListDestroy (freeFunction : α → Ledger → Ledger) (list : OwnedList α) (l : Ledger) :
    Ledger :=
  (list.nodes.foldl (fun l first => linkedListRemoveFirst freeFunction first l) l).free list.name

def linkedListCreate (alloc : Allocator) (cleanup : Ledger → Ledger) :
    Owning ReturnCode (OwnedList α) := do
  let list ← mallocs alloc sizeofLinkedList .failureCouldNotMalloc cleanup
  pure ⟨list, []⟩

def linkedListAppend (alloc : Allocator) (list : OwnedList α) (data : α)
    (cleanup : Ledger → Ledger) : Owning ReturnCode (OwnedList α) := do
  let node ← mallocs alloc sizeofNode .failureCouldNotMalloc cleanup
  pure { list with nodes := list.nodes ++ [⟨node, data⟩] }

end Lists

def transactionDestroy (transaction : Allocated Transaction) (l : Ledger) : Ledger :=
  l.free transaction.name

def blockDestroy (block : OwnedBlock) (l : Ledger) : Ledger :=
  (linkedListDestroy transactionDestroy block.transactionList l).free block.name

def blockchainDestroy (blockchain : OwnedBlockchain) (l : Ledger) : Ledger :=
  (linkedListDestroy blockDestroy blockchain.blockList l).free blockchain.name

def blockchainCreate (alloc : Allocator) (numLeadingZeroBytesRequiredInBlockHash : UInt64) :
    Owning ReturnCode OwnedBlockchain := do
  let newBlockchain ← mallocs alloc sizeofBlockchain .failureCouldNotMalloc id
  -- Without a list the chain is released again.
  let blockList ← linkedListCreate alloc (Ledger.free newBlockchain)
  pure ⟨newBlockchain, blockList, numLeadingZeroBytesRequiredInBlockHash⟩

def blockchainAddBlock (alloc : Allocator) (blockchain : OwnedBlockchain) (block : OwnedBlock)
    (cleanup : Ledger → Ledger) : Owning ReturnCode OwnedBlockchain := do
  let blockList ← linkedListAppend alloc blockchain.blockList block cleanup
  pure { blockchain with blockList := blockList }

/-- One round of the loop over transactions. -/
def deserializeTransaction (order : ByteOrder) (alloc : Allocator) (buffer : Buffer)
    (newBlockchain : OwnedBlockchain) (transactionList : OwnedList (Allocated Transaction)) :
    Owning ReturnCode (OwnedList (Allocated Transaction)) := do
  -- Each way out destroys the chain before the list.
  let destroyLists := fun l =>
    linkedListDestroy transactionDestroy transactionList (blockchainDestroy newBlockchain l)
  let transaction ← mallocs alloc sizeofTransaction .failureCouldNotMalloc destroyLists
  let fields ← reading (readTransaction order buffer) fun l => (destroyLists l).free transaction
  linkedListAppend alloc transactionList ⟨transaction, fields⟩ fun l =>
    (destroyLists l).free transaction

/-- One round of the loop over blocks. The block gets the time that was read
    instead of the one at which it is created. -/
def deserializeBlock (order : ByteOrder) (alloc : Allocator) (buffer : Buffer)
    (newBlockchain : OwnedBlockchain) : Owning ReturnCode OwnedBlockchain := do
  let fields ← reading (readBlockFields order buffer) (blockchainDestroy newBlockchain)
  let transactionList ← linkedListCreate alloc (blockchainDestroy newBlockchain)
  let transactionList ← loop (deserializeTransaction order alloc buffer newBlockchain)
    fields.numTransactions.toNat transactionList
  let block ← mallocs alloc sizeofBlock .failureCouldNotMalloc fun l =>
    linkedListDestroy transactionDestroy transactionList (blockchainDestroy newBlockchain l)
  let block : OwnedBlock :=
    { name := block
      createdAt := fields.blockCreatedAt.toInt64
      transactionList := transactionList
      proofOfWork := fields.proofOfWork
      previousBlockHash := fields.previousBlockHash }
  blockchainAddBlock alloc newBlockchain block fun l =>
    blockDestroy block (blockchainDestroy newBlockchain l)

def blockchainDeserialize (order : ByteOrder) (alloc : Allocator) (buffer : Buffer) :
    Owning ReturnCode OwnedBlockchain := do
  let numLeadingZeroBytesRequiredInBlockHash ← reading (readUInt64 order buffer) id
  let newBlockchain ← blockchainCreate alloc numLeadingZeroBytesRequiredInBlockHash
  let numBlocks ← reading (readUInt64 order buffer) (blockchainDestroy newBlockchain)
  loop (deserializeBlock order alloc buffer) numBlocks.toNat newBlockchain

/-- The free function of a list of peers is `free`. -/
def freePeerInfo (peer : Allocated PeerInfo) (l : Ledger) : Ledger := l.free peer.name

/-- One round of the loop over peers. -/
def deserializePeerInfo (order : ByteOrder) (alloc : Allocator) (buffer : Buffer)
    (newPeerInfoList : OwnedList (Allocated PeerInfo)) :
    Owning ReturnCode (OwnedList (Allocated PeerInfo)) := do
  let fields ← reading (readPeerInfo order buffer) (linkedListDestroy freePeerInfo newPeerInfoList)
  let peer ← mallocs alloc sizeofPeerInfo .failureCouldNotMalloc
    (linkedListDestroy freePeerInfo newPeerInfoList)
  linkedListAppend alloc newPeerInfoList ⟨peer, fields⟩ fun l =>
    linkedListDestroy freePeerInfo newPeerInfoList (l.free peer)

def peerInfoListDeserialize (order : ByteOrder) (alloc : Allocator) (buffer : Buffer) :
    Owning ReturnCode (OwnedList (Allocated PeerInfo)) := do
  let numPeers ← reading (readUInt64 order buffer) id
  let newPeerInfoList ← linkedListCreate alloc id
  loop (deserializePeerInfo order alloc buffer) numPeers.toNat newPeerInfoList

end OnHeap

end LeoCoin
