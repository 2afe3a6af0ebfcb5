import LeoCoin.Core.LinkedList
import LeoCoin.Core.ListNodes

/-!
# Lists as Sequences

The linked list functions on nodes do what those on sequences do.

A list object represents a sequence if a chain of distinct nodes hangs from its
head, ends in a null pointer and holds the elements in order. Each function is
described once, on an object that represents a sequence. Prepending and
appending need a node where there is none, which is what `malloc` gives.
Removing the first node and freeing it leaves the rest of the chain.

## Main definitions

* `Sequence`, `Represents`: The sequence that a list object represents.
* `Unused`: What `malloc` gives.

## Theorems

* `linkedListPrepend_represents`, `linkedListAppend_represents`,
  `linkedListRemoveFirst_represents`: The changes.
* `linkedListFind_represents`, `linkedListGetLast_represents`,
  `linkedListLength_represents`: The loops.
* `destroyLoop_represents`, `linkedListDestroy_represents`: Freeing the
  elements one by one.
-/

namespace LeoCoin.OnNodes

open NodeList

variable {α : Type}

/-- A list, as far as its callers are concerned. -/
structure Sequence (α : Type) where
  freeFunction : Nat
  compareFunction : Option (α → α → Int)
  elements : List α

/-- The object at an address is a list whose nodes are the given cells, and the
    cells hold the elements of the sequence. -/
structure Represents (m : ListMemory α) (a : Nat) (q : Sequence α) (cells : List (Nat × α)) :
    Prop where
  object : ∃ head, m.lists a = some ⟨q.freeFunction, q.compareFunction, head⟩ ∧
    Segment m.nodes head cells none
  distinct : (cells.map Prod.fst).Nodup
  bounded : ∀ p ∈ cells.map Prod.fst, 0 < p ∧ p < addresses
  elements : cells.map Prod.snd = q.elements

/-- `malloc` gives a null pointer or the address of no object. -/
def Unused (m : ListMemory α) (malloc : Pointer) : Prop :=
  ∀ p, malloc = some p → 0 < p ∧ p < addresses ∧ m.nodes p = none ∧ m.lists p = none

section Functions

variable {m : ListMemory α} {a : Nat} {q : Sequence α} {cells : List (Nat × α)}

theorem Represents.length_lt (h : Represents m a q cells) : cells.length < addresses := by
  have hlength := length_lt_of_distinct (cells.map Prod.fst) addresses (Nat.two_pow_pos 64)
    h.distinct h.bounded
  rwa [List.length_map] at hlength

theorem linkedListIsEmpty_represents (h : Represents m a q cells) :
    linkedListIsEmpty m (some a) true =
      some (.ok (), some (LeoCoin.linkedListIsEmpty q.elements)) := by
  rcases h.object with ⟨head, hobject, hsegment⟩
  simp only [linkedListIsEmpty, not_true_eq_false, if_false, hobject]
  rw [← h.elements]
  cases cells with
  | nil =>
      have hhead : head = none := hsegment
      rw [hhead]
      rfl
  | cons cell cells =>
      rw [hsegment.1]
      rfl

theorem linkedListGetFirst_represents (h : Represents m a q cells) :
    linkedListGetFirst m (some a) true =
      some (match cells with
        | [] => (.error .failureLinkedListEmpty, none)
        | cell :: _ => (.ok (), some (some cell.1))) := by
  rcases h.object with ⟨head, hobject, hsegment⟩
  simp only [linkedListGetFirst, not_true_eq_false, if_false, linkedListIsEmpty_represents h,
    Option.getD_some, hobject]
  rw [← h.elements]
  cases cells with
  | nil => rfl
  | cons cell cells =>
      rw [hsegment.1]
      rfl

theorem findLoop_segment (compare : α → α → Int) (data : α) (nodes : Nodes α) (ptr : Pointer)
    (cells : List (Nat × α)) (hsegment : Segment nodes ptr cells none) (rounds : Nat)
    (hrounds : cells.length ≤ rounds) :
    findLoop compare data nodes rounds ptr =
      some ((cells.find? fun cell => compare data cell.2 == 0).map Prod.fst) := by
  induction cells generalizing ptr rounds with
  | nil =>
      have hptr : ptr = none := hsegment
      rw [hptr]
      unfold findLoop
      rfl
  | cons cell cells ih =>
      rcases hsegment with ⟨rfl, next, hnode, hrest⟩
      cases rounds with
      | zero => exact absurd hrounds (Nat.not_succ_le_zero _)
      | succ rounds =>
          rw [findLoop, hnode]
          by_cases heq : compare data cell.2 = 0
          · rw [List.find?_cons_of_pos (by simpa only [beq_iff_eq] using heq)]
            simp only [if_pos heq, Option.map_some]
          · rw [List.find?_cons_of_neg (by simpa only [beq_iff_eq] using heq)]
            simp only [if_neg heq]
            exact ih next hrest rounds (Nat.le_of_succ_le_succ hrounds)

theorem linkedListFind_represents (h : Represents m a q cells) (data : α) :
    linkedListFind m (some a) (some data) true =
      some (match q.compareFunction with
        | none => (.error .failureLinkedListNoCompareFunction, none)
        | some compare => (.ok (),
            (cells.find? fun cell => compare data cell.2 == 0).map fun cell => some cell.1)) := by
  rcases h.object with ⟨head, hobject, hsegment⟩
  simp only [linkedListFind, not_true_eq_false, if_false, hobject]
  cases q.compareFunction with
  | none => rfl
  | some compare =>
      have hloop := findLoop_segment compare data m.nodes head cells hsegment addresses
        (Nat.le_of_lt h.length_lt)
      simp only [hloop]
      cases cells.find? fun cell => compare data cell.2 == 0 with
      | none => rfl
      | some cell => rfl

theorem getLastLoop_segment (nodes : Nodes α) (cell : Nat × α) (cells : List (Nat × α))
    (hsegment : Segment nodes (some cell.1) (cell :: cells) none) (rounds : Nat)
    (hrounds : cells.length ≤ rounds) :
    getLastLoop nodes rounds cell.1 = some ((cell :: cells).getLast (List.cons_ne_nil _ _)).1 := by
  induction cells generalizing cell rounds with
  | nil =>
      rcases hsegment with ⟨_, next, hnode, hnext⟩
      have hnone : next = none := hnext
      subst hnone
      unfold getLastLoop
      rw [hnode]
      rfl
  | cons cell' cells ih =>
      rcases hsegment with ⟨_, next, hnode, hrest⟩
      have hnext : next = some cell'.1 := hrest.1
      subst hnext
      cases rounds with
      | zero => exact absurd hrounds (Nat.not_succ_le_zero _)
      | succ rounds =>
          rw [getLastLoop, hnode]
          simp only
          rw [ih cell' hrest rounds (Nat.le_of_succ_le_succ hrounds),
            List.getLast_cons (List.cons_ne_nil _ _)]

theorem linkedListGetLast_represents (h : Represents m a q cells) :
    linkedListGetLast m (some a) true =
      some (match cells.getLast? with
        | none => (.error .failureLinkedListEmpty, none)
        | some cell => (.ok (), some (some cell.1))) := by
  rcases h.object with ⟨head, hobject, hsegment⟩
  simp only [linkedListGetLast, not_true_eq_false, if_false, linkedListIsEmpty_represents h,
    Option.getD_some, hobject, Option.bind_some]
  rw [← h.elements]
  have hlength := h.length_lt
  cases cells with
  | nil => rfl
  | cons cell cells =>
      have hhead : head = some cell.1 := hsegment.1
      subst hhead
      rw [List.length_cons] at hlength
      have hloop := getLastLoop_segment m.nodes cell cells hsegment addresses (by omega)
      simp only [LeoCoin.linkedListIsEmpty, List.map_cons, List.isEmpty_cons,
        Bool.false_eq_true, if_false, hloop, List.getLast?_eq_some_getLast (List.cons_ne_nil _ _)]

theorem lengthLoop_segment (nodes : Nodes α) (node : Pointer) (cells : List (Nat × α))
    (hsegment : Segment nodes node cells none) (rounds : Nat) (hrounds : cells.length ≤ rounds)
    (result : Nat) (hresult : result + cells.length < 2 ^ 64) :
    lengthLoop nodes rounds node result = some (result + cells.length) := by
  induction cells generalizing node rounds result with
  | nil =>
      have hnode : node = none := hsegment
      rw [hnode]
      unfold lengthLoop
      rfl
  | cons cell cells ih =>
      rcases hsegment with ⟨rfl, next, hnode, hrest⟩
      rw [List.length_cons] at hresult
      cases rounds with
      | zero => exact absurd hrounds (Nat.not_succ_le_zero _)
      | succ rounds =>
          have hcount : (result + 1) % 2 ^ 64 = result + 1 := Nat.mod_eq_of_lt (by omega)
          rw [lengthLoop, hnode]
          simp only [hcount]
          rw [ih next hrest rounds (Nat.le_of_succ_le_succ hrounds) (result + 1) (by omega),
            List.length_cons]
          congr 1
          omega

theorem linkedListLength_represents (h : Represents m a q cells) :
    linkedListLength m (some a) true =
      some (.ok (), some (LeoCoin.linkedListLength q.elements)) := by
  rcases h.object with ⟨head, hobject, hsegment⟩
  have hlength : 0 + cells.length < 2 ^ 64 := by
    rw [Nat.zero_add]
    exact h.length_lt
  have hloop := lengthLoop_segment m.nodes head cells hsegment addresses
    (Nat.le_of_lt h.length_lt) 0 hlength
  simp only [linkedListLength, not_true_eq_false, if_false, hobject, hloop]
  rw [LeoCoin.linkedListLength, ← h.elements, List.length_map, Nat.zero_add]

theorem linkedListCreate_represents (m : ListMemory α) (free a : Nat)
    (compareFunction : Option (α → α → Int)) :
    Represents (linkedListCreate m true (some free) compareFunction (some a)).2.1 a
      ⟨free, compareFunction, []⟩ [] := by
  refine ⟨⟨none, ?_, rfl⟩, List.nodup_nil, ?_, rfl⟩
  · exact Function.update_self a _ m.lists
  · intro p hp
    exact absurd hp List.not_mem_nil

theorem linkedListPrepend_represents (h : Represents m a q cells) (x : α) (p : Nat)
    (hunused : Unused m (some p)) :
    ∃ m', linkedListPrepend m (some a) (some x) (some p) = some (.ok (), m') ∧
      Represents m' a { q with elements := x :: q.elements } ((p, x) :: cells) := by
  rcases h.object with ⟨head, hobject, hsegment⟩
  rcases hunused p rfl with ⟨hpos, hlt, hnode, _⟩
  have hfresh := hsegment.fresh p hnode
  refine ⟨{ m with
    nodes := Function.update m.nodes p (some ⟨x, head⟩)
    lists := Function.update m.lists a (some ⟨q.freeFunction, q.compareFunction, some p⟩) },
    ?_, ⟨some p, ?_, rfl, head, ?_, ?_⟩, ?_, ?_, ?_⟩
  · simp only [linkedListPrepend, hobject]
  · exact Function.update_self a _ m.lists
  · exact Function.update_self p _ m.nodes
  · exact hsegment.update p _ hfresh
  · exact List.nodup_cons.mpr ⟨hfresh, h.distinct⟩
  · intro b hb
    rcases List.mem_cons.mp hb with rfl | hb
    · exact ⟨hpos, hlt⟩
    · exact h.bounded b hb
  · rw [List.map_cons, h.elements]

/-- Appending to a list that is not empty redirects its last node to the new
    one. -/
theorem linkedListAppend_concat {l : Nat} {y : α} (h : Represents m a q (cells ++ [(l, y)]))
    (x : α) (p : Nat) (hunused : Unused m (some p)) :
    ∃ m', linkedListAppend m (some a) (some x) (some p) = some (.ok (), m') ∧
      Represents m' a { q with elements := q.elements ++ [x] }
        (cells ++ [(l, y)] ++ [(p, x)]) := by
  rcases h.object with ⟨head, hobject, hsegment⟩
  rcases hunused p rfl with ⟨hpos, hlt, hnode, _⟩
  have hfresh := hsegment.fresh p hnode
  have hl : l ∉ cells.map Prod.fst := by
    have hcells := h.distinct
    rw [List.map_append, List.nodup_append] at hcells
    exact fun hmem => hcells.2.2 l hmem l (List.mem_singleton.mpr rfl) rfl
  have hne : p ≠ l := by
    intro heq
    refine hfresh ?_
    rw [heq, List.map_append]
    exact List.mem_append_right _ (List.mem_singleton.mpr rfl)
  have hfull : q.elements.isEmpty = false := by
    rw [← h.elements, List.map_append, List.isEmpty_eq_false_iff]
    exact List.append_ne_nil_of_right_ne_nil _ (List.cons_ne_nil _ _)
  -- The new node is written first, then the pointer of the last one.
  rcases (hsegment.update p (some ⟨x, none⟩) hfresh).redirect hl (some p) with
    ⟨hredirect, hchain⟩
  refine ⟨{ m with
    nodes := Function.update (Function.update m.nodes p (some ⟨x, none⟩)) l (some ⟨y, some p⟩) },
    ?_, ⟨head, hobject, ?_⟩, ?_, ?_, ?_⟩
  · simp only [linkedListAppend, linkedListIsEmpty_represents h, linkedListGetLast_represents h,
      LeoCoin.linkedListIsEmpty, hfull, Option.getD_some, Bool.false_eq_true, if_false,
      List.getLast?_concat, hredirect]
  · refine (segment_append _ _ _ _ _).mpr ⟨some p, hchain, rfl, none, ?_, rfl⟩
    exact (Function.update_of_ne hne _ _).trans (Function.update_self p _ m.nodes)
  · rw [List.map_append, List.nodup_append_comm]
    exact List.nodup_cons.mpr ⟨hfresh, h.distinct⟩
  · intro b hb
    rw [List.map_append, List.mem_append] at hb
    rcases hb with hb | hb
    · exact h.bounded b hb
    · rw [List.mem_singleton.mp hb]
      exact ⟨hpos, hlt⟩
  · rw [List.map_append, h.elements]
    rfl

theorem linkedListAppend_represents (h : Represents m a q cells) (x : α) (p : Nat)
    (hunused : Unused m (some p)) :
    ∃ m', linkedListAppend m (some a) (some x) (some p) = some (.ok (), m') ∧
      Represents m' a { q with elements := q.elements ++ [x] } (cells ++ [(p, x)]) := by
  rcases List.eq_nil_or_concat cells with hnil | ⟨cells', ⟨l, y⟩, hconcat⟩
  · -- The list is empty, so the function prepends.
    subst hnil
    have hempty : q.elements = [] := h.elements.symm
    rcases linkedListPrepend_represents h x p hunused with ⟨m', hprepend, hrepresents⟩
    refine ⟨m', ?_, ?_⟩
    · simp only [linkedListAppend, linkedListIsEmpty_represents h, hempty,
        LeoCoin.linkedListIsEmpty, List.isEmpty_nil, Option.getD_some, if_true, hprepend]
    · rw [hempty] at hrepresents ⊢
      exact hrepresents
  · rw [List.concat_eq_append] at hconcat
    subst hconcat
    exact linkedListAppend_concat h x p hunused

/-- Without memory for a node, appending changes nothing. -/
theorem linkedListAppend_null (h : Represents m a q cells) (x : α) :
    linkedListAppend m (some a) (some x) none = some (.error .failureCouldNotMalloc, m) := by
  simp only [linkedListAppend, linkedListIsEmpty_represents h, Option.getD_some,
    linkedListGetLast_represents h]
  by_cases hempty : LeoCoin.linkedListIsEmpty q.elements = true
  · simp only [if_pos hempty, linkedListPrepend]
  · rw [if_neg hempty]
    rcases List.eq_nil_or_concat cells with hnil | ⟨cells', cell, hconcat⟩
    · subst hnil
      exact absurd (congrArg List.isEmpty h.elements.symm) hempty
    · rw [hconcat, List.concat_eq_append, List.getLast?_concat]

theorem linkedListRemoveFirst_represents {cell : Nat × α} (h : Represents m a q (cell :: cells)) :
    ∃ m', linkedListRemoveFirst m (some a) = some (.ok (), m') ∧
      Represents m' a { q with elements := q.elements.tail } cells ∧
      m'.freed = m.freed ++ [(q.freeFunction, cell.2)] ∧
      m'.nodes = release m.nodes cell.1 ∧ ∀ b, b ≠ a → m'.lists b = m.lists b := by
  rcases h.object with ⟨head, hobject, hhead, next, hnode, hrest⟩
  have hdistinct := List.nodup_cons.mp h.distinct
  refine ⟨{
    lists := Function.update m.lists a (some ⟨q.freeFunction, q.compareFunction, next⟩)
    freed := m.freed ++ [(q.freeFunction, cell.2)]
    nodes := release m.nodes cell.1 }, ?_, ⟨⟨next, ?_, ?_⟩, hdistinct.2, ?_, ?_⟩, rfl, rfl, ?_⟩
  · simp only [linkedListRemoveFirst, linkedListGetFirst_represents h, Option.getD_some, hnode,
      hobject]
  · exact Function.update_self a _ m.lists
  · exact hrest.update cell.1 none hdistinct.1
  · intro p hp
    exact h.bounded p (List.mem_cons_of_mem _ hp)
  · rw [← h.elements]
    rfl
  · intro b hb
    exact Function.update_of_ne hb _ m.lists

theorem linkedListRemoveFirst_empty (h : Represents m a q []) :
    linkedListRemoveFirst m (some a) = some (.error .failureLinkedListEmpty, m) := by
  simp only [linkedListRemoveFirst, linkedListGetFirst_represents h]

/-- The loop frees the elements of the list in order and releases their
    nodes. -/
theorem destroyLoop_represents (cells : List (Nat × α)) (m : ListMemory α) (q : Sequence α)
    (h : Represents m a q cells) (rounds : Nat) (hrounds : cells.length ≤ rounds) :
    ∃ m', destroyLoop (some a) rounds m q.elements.isEmpty = some (.ok (), m') ∧
      m'.freed = m.freed ++ q.elements.map (fun x => (q.freeFunction, x)) ∧
      (∀ p, m'.nodes p = if p ∈ cells.map Prod.fst then none else m.nodes p) ∧
      ∀ b, b ≠ a → m'.lists b = m.lists b := by
  induction cells generalizing m q rounds with
  | nil =>
      have hempty : q.elements = [] := h.elements.symm
      rw [hempty]
      refine ⟨m, ?_, (List.append_nil _).symm, ?_, fun b _ => rfl⟩
      · unfold destroyLoop
        rfl
      · intro p
        exact (if_neg List.not_mem_nil).symm
  | cons cell cells ih =>
      cases rounds with
      | zero => exact absurd hrounds (Nat.not_succ_le_zero _)
      | succ rounds =>
          rcases linkedListRemoveFirst_represents h with
            ⟨m₁, hremove, hrepresents, hfreed, hnodes, hlists⟩
          rcases ih m₁ _ hrepresents rounds (Nat.le_of_succ_le_succ hrounds) with
            ⟨m', hloop, hfreed', hnodes', hlists'⟩
          have helements : q.elements = cell.2 :: q.elements.tail := by
            rw [← h.elements]
            rfl
          refine ⟨m', ?_, ?_, ?_, ?_⟩
          · rw [helements, List.isEmpty_cons, destroyLoop]
            simp only [hremove, linkedListIsEmpty_represents hrepresents, Option.getD_some]
            exact hloop
          · rw [hfreed', hfreed, helements, List.map_cons, List.tail_cons, List.append_assoc,
              List.singleton_append]
          · intro p
            rw [hnodes' p, hnodes, release, List.map_cons]
            by_cases hp : p = cell.1
            · subst hp
              rw [if_pos List.mem_cons_self, Function.update_self, ite_self]
            · rw [Function.update_of_ne hp]
              simp only [List.mem_cons, hp, false_or]
          · intro b hb
            rw [hlists' b hb, hlists b hb]

/-- Destroying a list ends, frees each of its elements once and releases its
    nodes and the list object, and nothing else. -/
theorem linkedListDestroy_represents (h : Represents m a q cells) :
    ∃ m', linkedListDestroy m (some a) = some (.ok (), m') ∧
      m'.freed = m.freed ++ q.elements.map (fun x => (q.freeFunction, x)) ∧
      (∀ p, m'.nodes p = if p ∈ cells.map Prod.fst then none else m.nodes p) ∧
      m'.lists = Function.update m.lists a none := by
  rcases destroyLoop_represents cells m q h addresses (Nat.le_of_lt h.length_lt) with
    ⟨m', hloop, hfreed, hnodes, hlists⟩
  refine ⟨{ m' with lists := Function.update m'.lists a none }, ?_, hfreed, hnodes, ?_⟩
  · simp only [linkedListDestroy, linkedListIsEmpty_represents h, Option.getD_some,
      LeoCoin.linkedListIsEmpty, hloop]
  · funext b
    change Function.update m'.lists a none b = _
    by_cases hb : b = a
    · rw [hb, Function.update_self, Function.update_self]
    · rw [Function.update_of_ne hb, Function.update_of_ne hb, hlists b hb]

end Functions

end LeoCoin.OnNodes
