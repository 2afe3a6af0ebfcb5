import LeoCoin.Core.PeerDiscoveryBootstrapServer
import LeoCoin.Library.NodeList

/-!
# Peer Sweep

The loop that removes expired peers, on the nodes of the list.

The list is its `head` pointer and the nodes in memory. The loop goes from node
to node with two pointers, `node` and the one before it, `prev`. A node that
has expired is taken out by writing to `head` or to the `next` of `prev`. Then
it is freed, and the loop goes back to `prev`, or to the head of the list, and
from there to the next node.

Reading or writing a node that does not exist leaves the loop without an
outcome, and so does a list that does not end.

## Main definitions

* `SweepState`: The list and the two pointers.
* `sweepRound`: One round of the loop.
* `sweepLoop`: The loop, for a number of rounds at most.
* `MemoryUse`: What a round does with nodes and records.
* `quietRound`, `quietLoop`: The loop without printing, with what it does with
  memory, whatever it takes for a peer to have expired.
-/

namespace LeoCoin

open NodeList

structure SweepState where
  nodes : Nodes PeerRecord
  head : Option Nat
  prev : Option Nat
  node : Option Nat
  /-- The names of the records freed so far. -/
  released : List Nat
  printed : List String

/-- Take the node out of the list. -/
def unlinkNode (w : SweepState) (node : Node PeerRecord) : Option SweepState :=
  match w.prev with
  | none => some { w with head := node.next }
  | some prev =>
    match redirect w.nodes prev node.next with
    | none => none
    | some nodes => some { w with nodes := nodes }

/-- Free the node at an address and its record, and go back to the node
    before. -/
def freeNode (w : SweepState) (a : Nat) (node : Node PeerRecord) : SweepState :=
  { w with
    nodes := release w.nodes a
    node := w.prev
    released := w.released ++ [node.data.name] }

/-- Go on to the next node, from the head of the list if there is no node. -/
def advanceNode (w : SweepState) : Option SweepState :=
  match w.node with
  | none => some { w with node := w.head }
  | some a =>
    match w.nodes a with
    | none => none
    | some node => some { w with prev := some a, node := node.next }

/-- One round of the loop, at the node at an address. -/
def sweepRound (order : ByteOrder) (args : BootstrapArgs) (r : PeerRequest) (w : SweepState)
    (a : Nat) : Option (Except ReturnCode Unit × SweepState) :=
  match w.nodes a with
  | none => none
  | some node =>
    if peerExpired args r.swept node.data.info then
      match unlinkNode w node with
      | none => none
      | some unlinked =>
        if ¬ args.printProgress then
          (advanceNode (freeNode unlinked a node)).map fun w' => (.ok (), w')
        else match peerLine order r (.removal node.data.name) "removed" node.data.info with
        | .error code => some (.error code, unlinked)
        | .ok line =>
          (advanceNode (freeNode { unlinked with printed := unlinked.printed ++ [line] } a
            node)).map fun w' => (.ok (), w')
    else (advanceNode w).map fun w' => (.ok (), w')

/-- The loop ends at a null pointer or with a failure. -/
def sweepLoop (order : ByteOrder) (args : BootstrapArgs) (r : PeerRequest) :
    (rounds : Nat) → SweepState → Option (Except ReturnCode Unit × SweepState)
  | rounds, w =>
    match w.node with
    | none => some (.ok (), w)
    | some a =>
      match rounds with
      | 0 => none
      | rounds + 1 =>
        match sweepRound order args r w a with
        | none => none
        | some (.error code, w') => some (.error code, w')
        | some (.ok (), w') => sweepLoop order args r rounds w'

/-- A node is read or written, a record is freed, or a node is freed. -/
inductive MemoryUse where
  | access (a : Nat)
  | freeRecord (name : Nat)
  | freeNode (a : Nat)
  deriving DecidableEq

/-- Removing a node reads it, writes the one before it, frees the record and the
    node, and reads the one before for the next node. -/
def removalUses (prev : Option Nat) (a name : Nat) : List MemoryUse :=
  .access a :: prev.toList.map .access ++ .freeRecord name :: .freeNode a ::
    prev.toList.map .access

/-- A round that prints nothing. -/
def quietRound (expired : PeerInfo → Bool) (w : SweepState) (a : Nat) :
    Option (List MemoryUse × SweepState) :=
  match w.nodes a with
  | none => none
  | some node =>
    if expired node.data.info then
      match unlinkNode w node with
      | none => none
      | some unlinked =>
        (advanceNode (freeNode unlinked a node)).map fun w' =>
          (removalUses w.prev a node.data.name, w')
    else (advanceNode w).map fun w' => ([.access a], w')

def quietLoop (expired : PeerInfo → Bool) :
    (rounds : Nat) → SweepState → Option (List MemoryUse × SweepState)
  | rounds, w =>
    match w.node with
    | none => some ([], w)
    | some a =>
      match rounds with
      | 0 => none
      | rounds + 1 =>
        match quietRound expired w a with
        | none => none
        | some (uses, w') =>
          (quietLoop expired rounds w').map fun (later, w'') => (uses ++ later, w'')

end LeoCoin
