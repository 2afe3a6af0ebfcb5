import LeoCoin.Core.ReturnCodes
import LeoCoin.Core.Types

/-!
# Linked List

The linked list functions, on the sequence of data a list holds.

A list counts its nodes in a `uint64_t`. The nodes are distinct objects of
sixteen bytes in one address space, so the count never wraps and is modelled
by the length.

## Main definitions

* `linkedListCreate`: A new list, if its memory is granted.
* `linkedListPrepend`, `linkedListAppend`: One more node, if it is granted.
* `linkedListIsEmpty`, `linkedListLength`, `linkedListGetLast`: Queries.
* `linkedListFind`: A search by the compare function of the list.

## Theorems

* `linkedListCreate_obtains`, `linkedListPrepend_obtains`,
  `linkedListAppend_obtains`: What the functions return if memory is granted.
-/

namespace LeoCoin

variable {α : Type}

def linkedListCreate (alloc : Allocator) (call : Nat) : Except ReturnCode (List α) :=
  if alloc.grants call sizeofLinkedList then .ok [] else .error .failureCouldNotMalloc

def linkedListPrepend (alloc : Allocator) (call : Nat) (list : List α) (data : α) :
    Except ReturnCode (List α) :=
  if alloc.grants call sizeofNode then .ok (data :: list) else .error .failureCouldNotMalloc

def linkedListAppend (alloc : Allocator) (call : Nat) (list : List α) (data : α) :
    Except ReturnCode (List α) :=
  if alloc.grants call sizeofNode then .ok (list ++ [data]) else .error .failureCouldNotMalloc

def linkedListIsEmpty (list : List α) : Bool := list.isEmpty

def linkedListLength (list : List α) : Nat := list.length

def linkedListGetLast (list : List α) : Except ReturnCode α :=
  match list.getLast? with
  | some last => .ok last
  | none => .error .failureLinkedListEmpty

/-- The first node whose data the compare function of the list equates with the
    given data. -/
def linkedListFind (compareFunction : Option (α → α → Int)) (list : List α) (data : α) :
    Except ReturnCode (Option α) :=
  match compareFunction with
  | none => .error .failureLinkedListNoCompareFunction
  | some compare => .ok (list.find? fun node => compare data node == 0)

theorem linkedListCreate_obtains (alloc : Allocator) (call : Nat) :
    alloc.Obtains sizeofLinkedList .failureCouldNotMalloc
      (linkedListCreate alloc call) ([] : List α) :=
  alloc.obtains_ite call _ _ _

theorem linkedListPrepend_obtains (alloc : Allocator) (call : Nat) (list : List α) (data : α) :
    alloc.Obtains sizeofNode .failureCouldNotMalloc (linkedListPrepend alloc call list data)
      (data :: list) :=
  alloc.obtains_ite call _ _ _

theorem linkedListAppend_obtains (alloc : Allocator) (call : Nat) (list : List α) (data : α) :
    alloc.Obtains sizeofNode .failureCouldNotMalloc (linkedListAppend alloc call list data)
      (list ++ [data]) :=
  alloc.obtains_ite call _ _ _

end LeoCoin
