import Mathlib.Data.Finset.Card
import Mathlib.Data.List.Nodup
import Mathlib.Logic.Function.Basic
import Mathlib.Order.Interval.Finset.Nat

/-!
# Lists of Nodes

Singly linked lists as they lie in memory.

A pointer is an address or null, and a node holds a datum and the pointer to
the next node. Which nodes exist is a partial function on addresses. `Segment`
says that from one pointer on there are certain cells, one after the other, and
then another pointer. A list is a segment that ends in a null pointer.

Writing to an address outside a segment does not change the segment. Redirecting
the pointer of the last cell of a segment moves its end. With the two, taking a
cell out of a list leaves the list without the cell.

## Main definitions

* `Node`, `Nodes`: Nodes, and the memory that holds them.
* `redirect`, `release`: Writing the pointer of a node, and freeing it.
* `Segment`: The cells between two pointers.
* `Reachable`: The addresses that following pointers leads to.

## Theorems

* `segment_append`: Segments behind each other.
* `Segment.update`: Writing elsewhere.
* `Segment.redirect`: Moving the end of a segment.
* `Segment.fresh`: An address without a node is in no segment.
* `Segment.reachable_iff`: What a list reaches are its cells.
* `length_lt_of_distinct`: There are fewer distinct addresses than addresses.
-/

namespace NodeList

variable {α : Type}

/-- A node: its datum, and the address of the next node unless it is the last. -/
structure Node (α : Type) where
  data : α
  next : Option Nat

/-- The nodes in memory, by address. -/
abbrev Nodes (α : Type) : Type := Nat → Option (Node α)

/-- Write the pointer of the node at an address, if there is a node. -/
def redirect (nodes : Nodes α) (a : Nat) (next : Option Nat) : Option (Nodes α) :=
  match nodes a with
  | none => none
  | some node => some (Function.update nodes a (some { node with next := next }))

/-- Free the node at an address. -/
def release (nodes : Nodes α) (a : Nat) : Nodes α := Function.update nodes a none

/-- From one pointer on lie the given cells, each an address with a datum, and
    the last of them points to the end. -/
def Segment (nodes : Nodes α) : Option Nat → List (Nat × α) → Option Nat → Prop
  | start, [], stop => start = stop
  | start, cell :: cells, stop =>
    start = some cell.1 ∧ ∃ next, nodes cell.1 = some ⟨cell.2, next⟩ ∧
      Segment nodes next cells stop

/-- Following pointers from a pointer leads to an address. -/
inductive Reachable (nodes : Nodes α) : Option Nat → Nat → Prop
  | here (a : Nat) : Reachable nodes (some a) a
  | next {a b : Nat} {node : Node α} (hnode : nodes a = some node)
      (h : Reachable nodes node.next b) : Reachable nodes (some a) b

theorem segment_append (nodes : Nodes α) (start : Option Nat) (xs ys : List (Nat × α))
    (stop : Option Nat) :
    Segment nodes start (xs ++ ys) stop ↔
      ∃ middle, Segment nodes start xs middle ∧ Segment nodes middle ys stop := by
  induction xs generalizing start with
  | nil => simp only [List.nil_append, Segment, exists_eq_left']
  | cons cell xs ih =>
      simp only [List.cons_append, Segment, ih]
      constructor
      · rintro ⟨hstart, next, hnode, middle, hxs, hys⟩
        exact ⟨middle, ⟨hstart, next, hnode, hxs⟩, hys⟩
      · rintro ⟨middle, ⟨hstart, next, hnode, hxs⟩, hys⟩
        exact ⟨hstart, next, hnode, middle, hxs, hys⟩

/-- Writing to an address that is not in a segment leaves the segment. -/
theorem Segment.update {nodes : Nodes α} {start stop : Option Nat} {cells : List (Nat × α)}
    (h : Segment nodes start cells stop) (a : Nat) (value : Option (Node α))
    (ha : a ∉ cells.map Prod.fst) : Segment (Function.update nodes a value) start cells stop := by
  induction cells generalizing start with
  | nil => exact h
  | cons cell cells ih =>
      rcases h with ⟨hstart, next, hnode, hrest⟩
      rw [List.map_cons, List.mem_cons, not_or] at ha
      refine ⟨hstart, next, ?_, ih hrest ha.2⟩
      rw [Function.update_of_ne (Ne.symm ha.1)]
      exact hnode

/-- Redirecting the last cell of a segment moves the end of the segment. -/
theorem Segment.redirect {nodes : Nodes α} {start stop : Option Nat} {cells : List (Nat × α)}
    {p : Nat} {x : α} (h : Segment nodes start (cells ++ [(p, x)]) stop)
    (hp : p ∉ cells.map Prod.fst) (stop' : Option Nat) :
    NodeList.redirect nodes p stop' =
        some (Function.update nodes p (some ⟨x, stop'⟩)) ∧
      Segment (Function.update nodes p (some ⟨x, stop'⟩)) start (cells ++ [(p, x)]) stop' := by
  rcases (segment_append nodes start cells [(p, x)] stop).mp h with
    ⟨middle, hcells, hmiddle, next, hnode, _⟩
  refine ⟨?_, ?_⟩
  · rw [NodeList.redirect, hnode]
  · refine (segment_append _ start cells [(p, x)] stop').mpr
      ⟨middle, hcells.update p _ hp, hmiddle, stop', ?_, rfl⟩
    exact Function.update_self p _ nodes

/-- A segment passes only through nodes that exist. -/
theorem Segment.fresh {nodes : Nodes α} {start stop : Option Nat} {cells : List (Nat × α)}
    (h : Segment nodes start cells stop) (a : Nat) (ha : nodes a = none) :
    a ∉ cells.map Prod.fst := by
  induction cells generalizing start with
  | nil => exact List.not_mem_nil
  | cons cell cells ih =>
      rcases h with ⟨_, next, hnode, hrest⟩
      rw [List.map_cons, List.mem_cons, not_or]
      refine ⟨?_, ih hrest⟩
      intro hcell
      rw [hcell, hnode] at ha
      exact absurd ha (Option.some_ne_none _)

/-- From the head of a list its cells can be reached and nothing else. -/
theorem Segment.reachable_iff {nodes : Nodes α} {start : Option Nat} {cells : List (Nat × α)}
    (h : Segment nodes start cells none) (a : Nat) :
    Reachable nodes start a ↔ a ∈ cells.map Prod.fst := by
  induction cells generalizing start with
  | nil =>
      have hstart : start = none := h
      subst hstart
      exact iff_of_false (fun hreach => nomatch hreach) List.not_mem_nil
  | cons cell cells ih =>
      rcases h with ⟨rfl, next, hnode, hrest⟩
      rw [List.map_cons, List.mem_cons, ← ih hrest]
      constructor
      · intro hreach
        cases hreach with
        | here => exact Or.inl rfl
        | next hnode' hreach =>
            rw [hnode, Option.some.injEq] at hnode'
            subst hnode'
            exact Or.inr hreach
      · intro hor
        rcases hor with rfl | hreach
        · exact Reachable.here _
        · exact Reachable.next hnode hreach

/-- Distinct addresses that are not null are fewer than there are addresses. -/
theorem length_lt_of_distinct (as : List Nat) (n : Nat) (hn : 0 < n) (hdistinct : as.Nodup)
    (hbound : ∀ a ∈ as, 0 < a ∧ a < n) : as.length < n := by
  have hsubset : as.toFinset ⊆ Finset.Ico 1 n := by
    intro a ha
    have hrange := hbound a (List.mem_toFinset.mp ha)
    exact Finset.mem_Ico.mpr hrange
  have hcard := Finset.card_le_card hsubset
  rw [List.toFinset_card_of_nodup hdistinct, Nat.card_Ico] at hcard
  omega

end NodeList
