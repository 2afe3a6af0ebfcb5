import LeoCoin.Core.OwnedBlockchain
import LeoCoin.Theory.PeerCodec
import LeoCoin.Theory.PeerTable
import LeoCoin.Theory.RoundTrip
import Mathlib.Algebra.Order.Group.Multiset
import Mathlib.Tactic.Abel

/-!
# Owned Blockchain

The decoders of chains and of lists of peers leak nothing.

The names of a chain are the names of all the objects it consists of. To destroy
it is to release these, each once and nothing else, and the same holds for
lists, blocks and transactions. Every jump to the end of a decoder is preceded
by the release of what is live at that point, so a decoder that fails leaves the
heap as it was, wherever it fails and whatever the bytes say. If it succeeds,
the objects of its result are what was added to the heap.

The decoders with their allocations return what the decoders without them
return, so everything that is known of those carries over.

## Main definitions

* `OwnedList.names`, `OwnedBlock.names`, `OwnedBlockchain.names`: The objects.

## Theorems

* `releases_linkedListDestroy`, `releases_blockDestroy`,
  `releases_blockchainDestroy`: What is destroyed.
* `accounts_deserializeTransaction`, `accounts_deserializeBlock`,
  `accounts_blockchainDeserialize`: The decoder of a chain, from the inside out.
* `accounts_peerInfoListDeserialize`: The decoder of a list of peers.
* `blockchainDeserialize_leaksNothing`, `peerInfoListDeserialize_leaksNothing`:
  What the decoders leave on the heap.
-/

namespace LeoCoin

open Decoder Owning

/-- The objects of a list, in the order in which they are released. -/
def OwnedList.names {α : Type} (f : α → Multiset Nat) (list : OwnedList α) : Multiset Nat :=
  (list.nodes.map fun node => f node.data + {node.name}).sum + {list.name}

def OwnedBlock.names (b : OwnedBlock) : Multiset Nat :=
  b.transactionList.names (fun transaction => {transaction.name}) + {b.name}

def OwnedBlockchain.names (c : OwnedBlockchain) : Multiset Nat :=
  c.blockList.names OwnedBlock.names + {c.name}

/-- One more node is one more object besides what it points to. -/
theorem OwnedList.names_append {α : Type} (f : α → Multiset Nat) (list : OwnedList α)
    (node : Allocated α) :
    ({ list with nodes := list.nodes ++ [node] } : OwnedList α).names f =
      list.names f + (f node.data + {node.name}) := by
  simp only [OwnedList.names, List.map_append, List.map_cons, List.map_nil, List.sum_append,
    List.sum_cons, List.sum_nil]
  abel

namespace OnHeap

theorem releases_linkedListDestroy {α : Type} {freeFunction : α → Ledger → Ledger}
    {f : α → Multiset Nat} (h : ∀ x, Releases (freeFunction x) (f x)) (list : OwnedList α) :
    Releases (linkedListDestroy freeFunction list) (list.names f) :=
  (releases_free list.name).comp
    (releases_foldl (linkedListRemoveFirst freeFunction) _
      (fun node => (releases_free node.name).comp (h node.data)) list.nodes)

theorem releases_transactionDestroy (transaction : Allocated Transaction) :
    Releases (transactionDestroy transaction) {transaction.name} :=
  releases_free transaction.name

theorem releases_transactions (list : OwnedList (Allocated Transaction)) :
    Releases (linkedListDestroy transactionDestroy list)
      (list.names fun transaction => {transaction.name}) :=
  releases_linkedListDestroy releases_transactionDestroy list

theorem releases_blockDestroy (b : OwnedBlock) : Releases (blockDestroy b) b.names :=
  (releases_free b.name).comp (releases_transactions b.transactionList)

theorem releases_blockchainDestroy (c : OwnedBlockchain) :
    Releases (blockchainDestroy c) c.names :=
  (releases_free c.name).comp (releases_linkedListDestroy releases_blockDestroy c.blockList)

theorem releases_id : Releases id 0 := by
  intro l rest h
  rw [Multiset.zero_add] at h
  exact h

section Stages

variable {rest : Multiset Nat}

/-- A request and what is made of it, as one call. -/
theorem allocating_eq {α : Type} (alloc : Allocator) (n : Nat) (x : α) :
    (allocating 1 fun call =>
      if alloc.grants call n then .ok x else .error ReturnCode.failureCouldNotMalloc) =
      (do
        allocate alloc n ReturnCode.failureCouldNotMalloc
        pure x) := by
  funext s
  change _ = Decoder.bind (allocate alloc n ReturnCode.failureCouldNotMalloc)
    (fun _ => pure x) s
  unfold Decoder.bind allocate allocating
  by_cases hgrants : alloc.grants s.calls n = true
  · simp only [if_pos hgrants]
    rfl
  · simp only [if_neg hgrants]

/-- The transaction without its allocations. -/
theorem deserializeTransaction_eq (order : ByteOrder) (alloc : Allocator) (buffer : Buffer)
    (transactionList : List Transaction) :
    LeoCoin.deserializeTransaction order alloc buffer transactionList = (do
      allocate alloc sizeofTransaction .failureCouldNotMalloc
      let fields ← readTransaction order buffer
      allocate alloc sizeofNode .failureCouldNotMalloc
      pure (transactionList ++ [fields])) := by
  -- The check of the length is moved in front of the rest.
  have hite : ∀ (c : Prop) [Decidable c] (m : Decoder ReturnCode Transaction)
      (f : Transaction → Decoder ReturnCode (List Transaction)),
      (if c then fail .failureSignatureTooLong else m) >>= f =
        if c then fail .failureSignatureTooLong else m >>= f := by
    intro c _ m f
    by_cases hc : c
    · rw [if_pos hc, if_pos hc, fail_bind]
    · rw [if_neg hc, if_neg hc]
  simp only [LeoCoin.deserializeTransaction, readTransaction, bind_assoc, pure_bind, hite,
    LeoCoin.linkedListAppend, allocating_eq]

/-- The members of a block without its allocations, with the header read at
    once. -/
theorem deserializeBlock_eq (order : ByteOrder) (alloc : Allocator) (now : Int64)
    (buffer : Buffer) (blockchain : Blockchain) :
    LeoCoin.deserializeBlock order alloc now buffer blockchain = (do
      let fields ← readBlockFields order buffer
      let transactionList ← (do
        allocate alloc sizeofLinkedList ReturnCode.failureCouldNotMalloc
        pure ([] : List Transaction))
      let transactionList ← Decoder.loop (LeoCoin.deserializeTransaction order alloc buffer)
        fields.numTransactions.toNat transactionList
      allocate alloc sizeofBlock .failureCouldNotMalloc
      let block : Block :=
        { createdAt := fields.blockCreatedAt.toInt64
          transactionList := transactionList
          proofOfWork := fields.proofOfWork
          previousBlockHash := fields.previousBlockHash }
      let blockList ← (do
        allocate alloc sizeofNode ReturnCode.failureCouldNotMalloc
        pure (blockchain.blockList ++ [block]))
      pure { blockchain with blockList := blockList }) := by
  -- To add a block is to request a node.
  have hadd : ∀ b : Block, (allocating 1 fun call =>
      LeoCoin.blockchainAddBlock alloc call blockchain b) = (do
        allocate alloc sizeofNode ReturnCode.failureCouldNotMalloc
        pure { blockchain with blockList := blockchain.blockList ++ [b] }) := by
    intro b
    rw [← allocating_eq]
    refine congrArg (allocating 1) (funext fun call => ?_)
    rw [LeoCoin.blockchainAddBlock, LeoCoin.linkedListAppend]
    by_cases hgrants : alloc.grants call sizeofNode = true
    · rw [if_pos hgrants, if_pos hgrants]
    · rw [if_neg hgrants, if_neg hgrants]
  simp only [LeoCoin.deserializeBlock, readBlockFields, bind_assoc, pure_bind,
    LeoCoin.linkedListCreate, LeoCoin.blockCreate, allocating_eq, hadd]

/-- The chain is created in two requests. A decoder that stops at the first has
    counted the second as well. -/
theorem blockchainCreate_agrees (alloc : Allocator)
    (numLeadingZeroBytesRequiredInBlockHash : UInt64) :
    Agrees (do
        allocate alloc sizeofBlockchain ReturnCode.failureCouldNotMalloc
        let blockList ← (do
          allocate alloc sizeofLinkedList ReturnCode.failureCouldNotMalloc
          pure ([] : List Block))
        pure ⟨blockList, numLeadingZeroBytesRequiredInBlockHash⟩)
      (allocating 2 fun call =>
        LeoCoin.blockchainCreate alloc call numLeadingZeroBytesRequiredInBlockHash) := by
  intro s
  simp only [bind_assoc, pure_bind]
  change (∀ a s', Decoder.bind (allocate alloc sizeofBlockchain _) (fun _ =>
      Decoder.bind (allocate alloc sizeofLinkedList _) fun _ => pure _) s = (.ok a, s') → _) ∧
    ∀ e, (Decoder.bind (allocate alloc sizeofBlockchain _) (fun _ =>
      Decoder.bind (allocate alloc sizeofLinkedList _) fun _ => pure _) s).1 = .error e → _
  unfold Decoder.bind allocate allocating LeoCoin.blockchainCreate LeoCoin.linkedListCreate
  -- Only the count of the requests may differ, and only after a failure.
  by_cases hfirst : alloc.grants s.calls sizeofBlockchain = true
  · by_cases hsecond : alloc.grants (s.calls + 1) sizeofLinkedList = true
    · simp only [if_pos hfirst, if_neg (not_not_intro hfirst), Cursor.request, if_pos hsecond]
      exact ⟨fun _ _ h => h, fun _ h => h⟩
    · simp only [if_pos hfirst, if_neg (not_not_intro hfirst), Cursor.request, if_neg hsecond]
      exact ⟨fun _ _ h => absurd h (by simp only [Prod.mk.injEq, reduceCtorEq, false_and,
        not_false_eq_true]), fun _ h => h⟩
  · simp only [if_neg hfirst, if_pos hfirst]
    exact ⟨fun _ _ h => absurd h (by simp only [Prod.mk.injEq, reduceCtorEq, false_and,
      not_false_eq_true]), fun _ h => h⟩

end Stages

section Decoders

variable {rest : Multiset Nat} (order : ByteOrder) (alloc : Allocator) (buffer : Buffer)

/-- A new list is one object. -/
theorem accounts_linkedListCreate {α β : Type} (f : α → Multiset Nat) (g : α → β)
    {cleanup : Ledger → Ledger} {names : Multiset Nat} (hcleanup : Releases cleanup names) :
    Accounts (linkedListCreate alloc cleanup)
      (do
        allocate alloc sizeofLinkedList ReturnCode.failureCouldNotMalloc
        pure ([] : List β))
      (fun list : OwnedList α => list.contents.map g) (names + rest)
      (fun list => list.names f + (names + rest)) rest := by
  refine accounts_bind (accounts_mallocs alloc sizeofLinkedList _ hcleanup rfl) ?_
  intro list
  refine accounts_pure rfl ?_
  simp only [OwnedList.names, List.map_nil, List.sum_nil, ← Multiset.singleton_add]
  abel

/-- What is appended becomes part of the list, with a node of its own. -/
theorem accounts_linkedListAppend {α β : Type} (f : α → Multiset Nat) (g : α → β)
    (list : OwnedList α) (data : α) {cleanup : Ledger → Ledger} {before names : Multiset Nat}
    (keep : Multiset Nat) (hcleanup : Releases cleanup names) (hbefore : before = names + rest)
    (hkeep : before = list.names f + f data + keep) :
    Accounts (linkedListAppend alloc list data cleanup)
      (do
        allocate alloc sizeofNode ReturnCode.failureCouldNotMalloc
        pure (list.contents.map g ++ [g data]))
      (fun list : OwnedList α => list.contents.map g) before
      (fun list => list.names f + keep) rest := by
  refine accounts_bind (accounts_mallocs alloc sizeofNode _ hcleanup hbefore) ?_
  intro node
  refine accounts_pure ?_ ?_
  · simp only [OwnedList.contents, List.map_append, List.map_cons, List.map_nil]
  · rw [OwnedList.names_append, hkeep, ← Multiset.singleton_add]
    abel

/-- A round of the loop over transactions. Each of its failures releases the
    chain, the transactions so far, and its own transaction once there is
    one. -/
theorem accounts_deserializeTransaction (c : OwnedBlockchain)
    (transactionList : OwnedList (Allocated Transaction)) :
    Accounts (deserializeTransaction order alloc buffer c transactionList)
      (LeoCoin.deserializeTransaction order alloc buffer
        (transactionList.contents.map Allocated.data))
      (fun list => list.contents.map Allocated.data)
      (transactionList.names (fun transaction => {transaction.name}) + (c.names + rest))
      (fun list => list.names (fun transaction => {transaction.name}) + (c.names + rest))
      rest := by
  have hlists : Releases (fun l =>
      linkedListDestroy transactionDestroy transactionList (blockchainDestroy c l)) _ :=
    (releases_transactions transactionList).comp (releases_blockchainDestroy c)
  rw [deserializeTransaction_eq]
  refine accounts_bind (accounts_mallocs alloc sizeofTransaction _ hlists ?_) ?_
  · abel
  intro transaction
  -- From here on a failure releases the transaction as well.
  have hall := (releases_free transaction).comp hlists
  refine accounts_bind (accounts_reading (readTransaction order buffer) hall ?_) ?_
  · rw [← Multiset.singleton_add]
    abel
  intro fields
  refine accounts_linkedListAppend alloc _ Allocated.data transactionList ⟨transaction, fields⟩
    (c.names + rest) hall ?_ ?_
  · rw [← Multiset.singleton_add]
    abel
  · rw [← Multiset.singleton_add]
    abel

/-- A round of the loop over blocks. -/
theorem accounts_deserializeBlock (now : Int64) (c : OwnedBlockchain) :
    Accounts (deserializeBlock order alloc buffer c)
      (LeoCoin.deserializeBlock order alloc now buffer c.blockchain) OwnedBlockchain.blockchain
      (c.names + rest) (fun c => c.names + rest) rest := by
  have hchain := releases_blockchainDestroy c
  rw [deserializeBlock_eq]
  refine accounts_bind (accounts_reading (readBlockFields order buffer) hchain rfl) ?_
  intro fields
  refine accounts_bind (accounts_linkedListCreate alloc
    (fun transaction : Allocated Transaction => {transaction.name}) Allocated.data hchain) ?_
  intro created
  refine accounts_bind (accounts_loop
    (fun list => accounts_deserializeTransaction order alloc buffer c list) _ created) ?_
  intro transactionList
  have hlists : Releases (fun l =>
      linkedListDestroy transactionDestroy transactionList (blockchainDestroy c l)) _ :=
    (releases_transactions transactionList).comp hchain
  refine accounts_bind (accounts_mallocs alloc sizeofBlock _ hlists ?_) ?_
  · abel
  intro name
  -- From here on the list of transactions belongs to the block.
  have hall := (releases_blockDestroy ⟨name, fields.blockCreatedAt.toInt64, transactionList,
    fields.proofOfWork, fields.previousBlockHash⟩).comp hchain
  refine accounts_bind (accounts_linkedListAppend alloc OwnedBlock.names OwnedBlock.block
    c.blockList _ ({c.name} + rest) hall ?_ ?_) ?_
  · rw [OwnedBlock.names, ← Multiset.singleton_add]
    abel
  · rw [OwnedBlock.names, OwnedBlockchain.names, ← Multiset.singleton_add]
    abel
  · intro blockList
    exact accounts_pure rfl (by
      rw [OwnedBlockchain.names]
      abel)

theorem accounts_blockchainCreate (numLeadingZeroBytesRequiredInBlockHash : UInt64) :
    Accounts (blockchainCreate alloc numLeadingZeroBytesRequiredInBlockHash)
      (allocating 2 fun call =>
        LeoCoin.blockchainCreate alloc call numLeadingZeroBytesRequiredInBlockHash)
      OwnedBlockchain.blockchain rest (fun c => c.names + rest) rest := by
  refine Accounts.of_agrees ?_ (blockchainCreate_agrees alloc _)
  refine accounts_bind (accounts_mallocs alloc sizeofBlockchain _ releases_id ?_) ?_
  · rw [Multiset.zero_add]
  intro name
  refine accounts_bind (accounts_linkedListCreate alloc OwnedBlock.names OwnedBlock.block
    (releases_free name)) ?_
  intro blockList
  refine accounts_pure rfl ?_
  rw [OwnedBlockchain.names, Multiset.add_assoc]

/-- The decoder of a chain. -/
theorem accounts_blockchainDeserialize (now : Int64) :
    Accounts (blockchainDeserialize order alloc buffer)
      (LeoCoin.blockchainDeserialize order alloc now buffer) OwnedBlockchain.blockchain rest
      (fun c => c.names + rest) rest := by
  refine accounts_bind (accounts_reading (readUInt64 order buffer) releases_id ?_) ?_
  · rw [Multiset.zero_add]
  intro numLeadingZeroBytesRequiredInBlockHash
  refine accounts_bind (accounts_blockchainCreate alloc _) ?_
  intro newBlockchain
  refine accounts_bind (accounts_reading (readUInt64 order buffer)
    (releases_blockchainDestroy newBlockchain) rfl) ?_
  intro numBlocks
  exact accounts_loop (fun c => accounts_deserializeBlock order alloc buffer now c) _ newBlockchain

theorem releases_peers (list : OwnedList (Allocated PeerInfo)) :
    Releases (linkedListDestroy freePeerInfo list) (list.names fun peer => {peer.name}) := by
  have hpeer : ∀ peer : Allocated PeerInfo, Releases (freePeerInfo peer) {peer.name} :=
    fun peer => releases_free peer.name
  exact releases_linkedListDestroy hpeer list

/-- A round of the loop over peers, without its allocations. -/
theorem deserializePeerInfo_eq (peerInfoList : List PeerInfo) :
    LeoCoin.deserializePeerInfo order alloc buffer peerInfoList = (do
      let fields ← readPeerInfo order buffer
      allocate alloc sizeofPeerInfo .failureCouldNotMalloc
      allocate alloc sizeofNode .failureCouldNotMalloc
      pure (peerInfoList ++ [fields])) := by
  simp only [LeoCoin.deserializePeerInfo, readPeerInfo, bind_assoc, pure_bind,
    LeoCoin.linkedListAppend, allocating_eq]

/-- A round of the loop over peers. The record of the peer is allocated when all
    its fields have been read. -/
theorem accounts_deserializePeerInfo (list : OwnedList (Allocated PeerInfo)) :
    Accounts (deserializePeerInfo order alloc buffer list)
      (LeoCoin.deserializePeerInfo order alloc buffer (list.contents.map Allocated.data))
      (fun list => list.contents.map Allocated.data)
      (list.names (fun peer => {peer.name}) + rest)
      (fun list => list.names (fun peer => {peer.name}) + rest) rest := by
  have hlist := releases_peers list
  rw [deserializePeerInfo_eq]
  refine accounts_bind (accounts_reading (readPeerInfo order buffer) hlist rfl) ?_
  intro fields
  refine accounts_bind (accounts_mallocs alloc sizeofPeerInfo _ hlist rfl) ?_
  intro peer
  -- Without a node the record is released before the list.
  refine accounts_linkedListAppend alloc _ Allocated.data list ⟨peer, fields⟩ rest
    (hlist.comp (releases_free peer)) ?_ ?_
  · rw [← Multiset.singleton_add, Multiset.add_assoc]
  · rw [← Multiset.singleton_add]
    abel

/-- The decoder of a list of peers. -/
theorem accounts_peerInfoListDeserialize :
    Accounts (peerInfoListDeserialize order alloc buffer)
      (LeoCoin.peerInfoListDeserialize order alloc buffer)
      (fun list => list.contents.map Allocated.data) rest
      (fun list => list.names (fun peer => {peer.name}) + rest) rest := by
  have hcreate : (allocating 1 fun call => LeoCoin.linkedListCreate alloc call) = (do
      allocate alloc sizeofLinkedList ReturnCode.failureCouldNotMalloc
      pure ([] : List PeerInfo)) := by
    rw [← allocating_eq]
    rfl
  unfold LeoCoin.peerInfoListDeserialize
  rw [hcreate]
  refine accounts_bind (accounts_reading (readUInt64 order buffer) releases_id ?_) ?_
  · rw [Multiset.zero_add]
  intro numPeers
  have hlist : Accounts (linkedListCreate alloc id) _
      (fun list : OwnedList (Allocated PeerInfo) => list.contents.map Allocated.data) (0 + rest)
      (fun list => list.names (fun peer => {peer.name}) + (0 + rest)) rest :=
    accounts_linkedListCreate alloc _ Allocated.data releases_id
  rw [Multiset.zero_add] at hlist
  refine accounts_bind hlist ?_
  intro newPeerInfoList
  exact accounts_loop (fun list => accounts_deserializePeerInfo order alloc buffer list) _
    newPeerInfoList

end Decoders

/-- The decoder of a chain with its allocations has the outcome of the decoder
    without them. However it fails, it has released all it allocated. If it
    succeeds, the objects of the chain are what it added to the heap, and to
    destroy the chain releases each of them once and nothing else. -/
theorem blockchainDeserialize_leaksNothing (order : ByteOrder) (alloc : Allocator) (now : Int64)
    (buffer : Buffer) (s : Cursor) (l : Ledger) (names : Multiset Nat) (h : l.Holds names) :
    ∃ result s' l', blockchainDeserialize order alloc buffer s l = (result, s', l') ∧
      (LeoCoin.blockchainDeserialize order alloc now buffer s).1 =
        result.map OwnedBlockchain.blockchain ∧
      (∀ code, result = .error code → l'.Holds names) ∧
      ∀ c, result = .ok c → l'.Holds (c.names + names) ∧ (blockchainDestroy c l').Holds names :=
  (accounts_blockchainDeserialize order alloc buffer now).leaksNothing
    releases_blockchainDestroy s l h

/-- On an empty heap a chain is read from its encoding, is live, and is destroyed
    again. -/
theorem blockchainDeserialize_leaksNothing_sample :
    ∃ c s' l', blockchainDeserialize .big .generous
        (.ofBytes (blockchainBytes .little
          ⟨[sampleGenesis, sampleSuccessor sampleGenesis], 2⟩) fun _ => 7)
        .start .start = (.ok c, s', l') ∧
      c.blockchain = ⟨[sampleGenesis, sampleSuccessor sampleGenesis], 2⟩ ∧
      l'.Holds (c.names + 0) ∧ (blockchainDestroy c l').Holds 0 := by
  have hok := blockchainDeserialize_ok .big .little .generous 0
    (Buffer.ofBytes (blockchainBytes .little
      ⟨[sampleGenesis, sampleSuccessor sampleGenesis], 2⟩) fun _ => 7) _ rfl
    (by rw [Buffer.ofBytes, blockchainBytes_length]; decide) (holds_ofBytes _ _)
    (signaturesFit_sample 2) (Allocator.generous_grants _ (by decide))
  rcases blockchainDeserialize_leaksNothing .big .generous 0
    (.ofBytes (blockchainBytes .little
      ⟨[sampleGenesis, sampleSuccessor sampleGenesis], 2⟩) fun _ => 7)
    .start .start 0 .start with ⟨result, s', l', hrun, hplain, -, hdone⟩
  rw [hok] at hplain
  rcases result with e | c
  · exact absurd hplain (by simp only [Except.map, reduceCtorEq, not_false_eq_true])
  · rw [Except.map, Except.ok.injEq] at hplain
    exact ⟨c, s', l', hrun, hplain.symm, hdone c rfl⟩

/-- The decoder of a list of peers leaks nothing either. -/
theorem peerInfoListDeserialize_leaksNothing (order : ByteOrder) (alloc : Allocator)
    (buffer : Buffer) (s : Cursor) (l : Ledger) (names : Multiset Nat) (h : l.Holds names) :
    ∃ result s' l', peerInfoListDeserialize order alloc buffer s l = (result, s', l') ∧
      (LeoCoin.peerInfoListDeserialize order alloc buffer s).1 =
        result.map (fun list => list.contents.map Allocated.data) ∧
      (∀ code, result = .error code → l'.Holds names) ∧
      ∀ list, result = .ok list →
        l'.Holds (list.names (fun peer => {peer.name}) + names) ∧
        (linkedListDestroy freePeerInfo list l').Holds names :=
  (accounts_peerInfoListDeserialize order alloc buffer).leaksNothing releases_peers s l h

def samplePeerList : List PeerInfo := [⟨sampleAddr 1, 5⟩, ⟨sampleAddr 2, 4⟩]

/-- A list of two peers is read and destroyed. One that announces a third peer
    is given up with its list, peers and nodes released. -/
theorem peerInfoListDeserialize_leaksNothing_sample :
    (∃ list s' l', peerInfoListDeserialize .big .generous
        (.ofBytes (peerInfoListBytes .little samplePeerList) fun _ => 7)
        .start .start = (.ok list, s', l') ∧
      list.contents.map Allocated.data = samplePeerList ∧
      (linkedListDestroy freePeerInfo list l').Holds 0) ∧
    ∃ s' l', peerInfoListDeserialize .big .generous
        (.ofBytes (storeUInt64 .big 3 ++
          (samplePeerList.map (peerInfoBytes .big)).flatten) fun _ => 7)
        .start .start = (.error .failureBufferTooSmall, s', l') ∧ l'.Holds 0 := by
  constructor
  · have hok := peerInfoListDeserialize_ok .big .little .generous
      (Buffer.ofBytes (peerInfoListBytes .little samplePeerList)
        fun _ => 7) _ rfl
      (by rw [Buffer.ofBytes, peerInfoListBytes_length]; decide) (holds_ofBytes _ _)
      (Allocator.generous_grants _ (by decide))
    rcases peerInfoListDeserialize_leaksNothing .big .generous
      (.ofBytes (peerInfoListBytes .little samplePeerList) fun _ => 7)
      .start .start 0 .start with ⟨result, s', l', hrun, hplain, -, hdone⟩
    rw [hok] at hplain
    rcases result with e | list
    · exact absurd hplain (by simp only [Except.map, reduceCtorEq, not_false_eq_true])
    · rw [Except.map, Except.ok.injEq] at hplain
      exact ⟨list, s', l', hrun, hplain.symm, (hdone list rfl).2⟩
  · rcases peerInfoListDeserialize_leaksNothing .big .generous
      (.ofBytes (storeUInt64 .big 3 ++
        (samplePeerList.map (peerInfoBytes .big)).flatten) fun _ => 7)
      .start .start 0 .start with ⟨result, s', l', hrun, hplain, hfail, -⟩
    rw [peerInfoListDeserialize_exact _ _ _ (Allocator.generous_grants _ (by decide)),
      if_neg (by decide)] at hplain
    rcases result with e | list
    · rw [Except.map, Except.error.injEq] at hplain
      subst hplain
      exact ⟨s', l', hrun, hfail _ rfl⟩
    · exact absurd hplain (by simp only [Except.map, reduceCtorEq, not_false_eq_true])

end OnHeap

end LeoCoin
