import LeoCoin.Core.ReturnCodes
import LeoCoin.Library.NodeList

/-!
# List Nodes

The linked list functions, on the list objects and nodes in memory.

`LinkedList` has the functions on the sequence of data a list holds. Here they
are again with every pointer they follow and write. A pointer that is null is
`none`. The data of a node are pointers to data of the caller, and the functions
refuse a null pointer, so a datum is a value of any type. An output parameter is
given or null, and a function returns what it writes there, if anything.

`malloc` gives a null pointer or an address. A call that follows a pointer to an
object that does not exist has no outcome, and neither has a loop that goes in a
circle. All nodes lie in one address space, so a loop that has taken a round for
each address and still goes on has met a node twice.

## Main definitions

* `ListObject`, `ListMemory`: A `linked_list_t`, and the memory.
* `linkedListCreate`, `linkedListDestroy`: Making a list and freeing it.
* `linkedListPrepend`, `linkedListAppend`, `linkedListRemoveFirst`: Changing it.
* `linkedListIsEmpty`, `linkedListGetFirst`, `linkedListGetLast`,
  `linkedListFind`, `linkedListLength`: Reading it.
-/

namespace LeoCoin.OnNodes

open NodeList

variable {α : Type}

/-- An address, or `none` for a null pointer. -/
abbrev Pointer : Type := Option Nat

/-- `SUCCESS`, or a failure. -/
abbrev Status : Type := Except ReturnCode Unit

/-- The number of addresses. -/
def addresses : Nat := 2 ^ 64

/-- A `linked_list_t`. -/
structure ListObject (α : Type) where
  /-- The address of the free function. -/
  freeFunction : Nat
  compareFunction : Option (α → α → Int)
  head : Pointer

structure ListMemory (α : Type) where
  lists : Nat → Option (ListObject α)
  nodes : Nodes α
  /-- The calls of free functions so far, each with the function and its
      argument. -/
  freed : List (Nat × α)

def linkedListCreate (m : ListMemory α) (linkedListGiven : Bool) (freeFunction : Pointer)
    (compareFunction : Option (α → α → Int)) (malloc : Pointer) :
    Status × ListMemory α × Option Pointer :=
  if ¬ linkedListGiven then (.error .failureInvalidInput, m, none)
  else match freeFunction with
  | none => (.error .failureInvalidInput, m, none)
  | some free =>
    match malloc with
    | none => (.error .failureCouldNotMalloc, m, none)
    | some a =>
      (.ok (),
        { m with lists := Function.update m.lists a (some ⟨free, compareFunction, none⟩) },
        some (some a))

def linkedListIsEmpty (m : ListMemory α) (linkedList : Pointer) (isEmptyGiven : Bool) :
    Option (Status × Option Bool) :=
  match linkedList with
  | none => some (.error .failureInvalidInput, none)
  | some a =>
    if ¬ isEmptyGiven then some (.error .failureInvalidInput, none)
    else match m.lists a with
    | none => none
    | some list => some (.ok (), some list.head.isNone)

def linkedListPrepend (m : ListMemory α) (linkedList : Pointer) (data : Option α)
    (malloc : Pointer) : Option (Status × ListMemory α) :=
  match linkedList, data with
  | some a, some data =>
    match malloc with
    | none => some (.error .failureCouldNotMalloc, m)
    | some node =>
      match m.lists a with
      | none => none
      | some list => some (.ok (),
          { m with
            nodes := Function.update m.nodes node (some ⟨data, list.head⟩)
            lists := Function.update m.lists a (some { list with head := some node }) })
  | _, _ => some (.error .failureInvalidInput, m)

def linkedListGetFirst (m : ListMemory α) (linkedList : Pointer) (nodeGiven : Bool) :
    Option (Status × Option Pointer) :=
  match linkedList with
  | none => some (.error .failureInvalidInput, none)
  | some a =>
    if ¬ nodeGiven then some (.error .failureInvalidInput, none)
    else match linkedListIsEmpty m linkedList true with
    | none => none
    | some (.error code, _) => some (.error code, none)
    | some (.ok (), isEmpty) =>
      if isEmpty.getD false then some (.error .failureLinkedListEmpty, none)
      else match m.lists a with
      | none => none
      | some list => some (.ok (), some list.head)

def linkedListRemoveFirst (m : ListMemory α) (linkedList : Pointer) :
    Option (Status × ListMemory α) :=
  match linkedList with
  | none => some (.error .failureInvalidInput, m)
  | some a =>
    match linkedListGetFirst m linkedList true with
    | none => none
    | some (.error code, _) => some (.error code, m)
    | some (.ok (), first) =>
      match first.getD none with
      | none => none
      | some first =>
        match m.nodes first, m.lists a with
        | some node, some list => some (.ok (),
            { lists := Function.update m.lists a (some { list with head := node.next })
              freed := m.freed ++ [(list.freeFunction, node.data)]
              nodes := release m.nodes first })
        | _, _ => none

/-- The loop of `linked_list_find`, which ends at the first node that compares
    equal or with a null pointer. -/
def findLoop (compare : α → α → Int) (data : α) (nodes : Nodes α) :
    (rounds : Nat) → (ptr : Pointer) → Option Pointer
  | _, none => some none
  | 0, some _ => none
  | rounds + 1, some ptr =>
    match nodes ptr with
    | none => none
    | some node =>
      if compare data node.data = 0 then some (some ptr)
      else findLoop compare data nodes rounds node.next

def linkedListFind (m : ListMemory α) (linkedList : Pointer) (data : Option α)
    (nodeGiven : Bool) : Option (Status × Option Pointer) :=
  match linkedList, data with
  | some a, some data =>
    if ¬ nodeGiven then some (.error .failureInvalidInput, none)
    else match m.lists a with
    | none => none
    | some list =>
      match list.compareFunction with
      | none => some (.error .failureLinkedListNoCompareFunction, none)
      | some compare =>
        match findLoop compare data m.nodes addresses list.head with
        | none => none
        | some none => some (.ok (), none)
        | some (some ptr) => some (.ok (), some (some ptr))
  | _, _ => some (.error .failureInvalidInput, none)

/-- The loop of `linked_list_get_last`, which ends at the node that points to no
    other. -/
def getLastLoop (nodes : Nodes α) : (rounds : Nat) → (ptr : Nat) → Option Nat
  | rounds, ptr =>
    match nodes ptr with
    | none => none
    | some node =>
      match node.next with
      | none => some ptr
      | some next =>
        match rounds with
        | 0 => none
        | rounds + 1 => getLastLoop nodes rounds next

def linkedListGetLast (m : ListMemory α) (linkedList : Pointer) (nodeGiven : Bool) :
    Option (Status × Option Pointer) :=
  match linkedList with
  | none => some (.error .failureInvalidInput, none)
  | some a =>
    if ¬ nodeGiven then some (.error .failureInvalidInput, none)
    else match linkedListIsEmpty m linkedList true with
    | none => none
    | some (.error code, _) => some (.error code, none)
    | some (.ok (), isEmpty) =>
      if isEmpty.getD false then some (.error .failureLinkedListEmpty, none)
      else match (m.lists a).bind ListObject.head with
      | none => none
      | some head =>
        match getLastLoop m.nodes addresses head with
        | none => none
        | some ptr => some (.ok (), some (some ptr))

def linkedListAppend (m : ListMemory α) (linkedList : Pointer) (data : Option α)
    (malloc : Pointer) : Option (Status × ListMemory α) :=
  match linkedList, data with
  | some _, some x =>
    match linkedListIsEmpty m linkedList true with
    | none => none
    | some (.error code, _) => some (.error code, m)
    | some (.ok (), isEmpty) =>
      if isEmpty.getD false then linkedListPrepend m linkedList data malloc
      else match linkedListGetLast m linkedList true with
      | none => none
      | some (.error code, _) => some (.error code, m)
      | some (.ok (), last) =>
        match malloc with
        | none => some (.error .failureCouldNotMalloc, m)
        | some node =>
          match last.getD none with
          | none => none
          | some last =>
            match redirect (Function.update m.nodes node (some ⟨x, none⟩)) last (some node) with
            | none => none
            | some nodes => some (.ok (), { m with nodes := nodes })
  | _, _ => some (.error .failureInvalidInput, m)

/-- The loop of `linked_list_length`. The count is a `uint64_t`. -/
def lengthLoop (nodes : Nodes α) :
    (rounds : Nat) → (node : Pointer) → (result : Nat) → Option Nat
  | _, none, result => some result
  | 0, some _, _ => none
  | rounds + 1, some node, result =>
    match nodes node with
    | none => none
    | some node => lengthLoop nodes rounds node.next ((result + 1) % 2 ^ 64)

def linkedListLength (m : ListMemory α) (linkedList : Pointer) (lengthGiven : Bool) :
    Option (Status × Option Nat) :=
  match linkedList with
  | none => some (.error .failureInvalidInput, none)
  | some a =>
    if ¬ lengthGiven then some (.error .failureInvalidInput, none)
    else match m.lists a with
    | none => none
    | some list =>
      match lengthLoop m.nodes addresses list.head 0 with
      | none => none
      | some result => some (.ok (), some result)

/-- The loop of `linked_list_destroy`. -/
def destroyLoop (linkedList : Pointer) :
    (rounds : Nat) → ListMemory α → (isEmpty : Bool) → Option (Status × ListMemory α)
  | _, m, true => some (.ok (), m)
  | 0, _, false => none
  | rounds + 1, m, false =>
    match linkedListRemoveFirst m linkedList with
    | none => none
    | some (.error code, m') => some (.error code, m')
    | some (.ok (), m') =>
      match linkedListIsEmpty m' linkedList true with
      | none => none
      | some (.error code, _) => some (.error code, m')
      | some (.ok (), isEmpty) => destroyLoop linkedList rounds m' (isEmpty.getD false)

def linkedListDestroy (m : ListMemory α) (linkedList : Pointer) :
    Option (Status × ListMemory α) :=
  match linkedList with
  | none => some (.error .failureInvalidInput, m)
  | some a =>
    match linkedListIsEmpty m linkedList true with
    | none => none
    | some (.error code, _) => some (.error code, m)
    | some (.ok (), isEmpty) =>
      match destroyLoop linkedList addresses m (isEmpty.getD false) with
      | none => none
      | some (.error code, m') => some (.error code, m')
      | some (.ok (), m') => some (.ok (), { m' with lists := Function.update m'.lists a none })

end LeoCoin.OnNodes
