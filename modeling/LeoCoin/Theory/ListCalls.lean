import LeoCoin.Library.Run
import LeoCoin.Theory.ListNodes

/-!
# Runs of List Calls

A caller that makes one call after another on a list.

A caller keeps the list and the variables it passes to be written. It calls the
functions in any order, with null pointers where it likes, and `malloc` may fail
at any call. From the calls alone follows which sequence the list represents and
what each call returns. So a run of calls on nodes is a run on sequences, by
induction with one lemma for a call.

## Main definitions

* `Session`, `ListCall`, `sessionStep`: A caller and its calls.
* `ListCall.after`, `ListCall.returns`, `ListCall.Stores`: The calls on
  sequences.
* `Holds`, `Follows`: The relation between the two.

## Theorems

* `sessionStep_follows`: One call.
* `run_follows`: A run of calls.
* `linkedList_represents_sequence`: A list represents a sequence.
-/

namespace LeoCoin.OnNodes

open NodeList Run

variable {α : Type}

/-- A caller of one list: the list, the variables it passes to be written, and
    what the last call returned. -/
structure Session (α : Type) where
  memory : ListMemory α
  linkedList : Pointer
  node : Pointer
  length : Nat
  isEmpty : Bool
  status : Status

/-- The calls, with their arguments other than the list, and what `malloc`
    gives during the call. -/
inductive ListCall (α : Type) where
  | create (linkedListGiven : Bool) (freeFunction : Pointer)
      (compareFunction : Option (α → α → Int)) (malloc : Pointer)
  | prepend (data : Option α) (malloc : Pointer)
  | append (data : Option α) (malloc : Pointer)
  | removeFirst
  | find (data : Option α) (nodeGiven : Bool)
  | getFirst (nodeGiven : Bool)
  | getLast (nodeGiven : Bool)
  | isEmpty (isEmptyGiven : Bool)
  | length (lengthGiven : Bool)

/-- What `malloc` gives during a call, if the call asks for memory. -/
def ListCall.malloc : ListCall α → Pointer
  | .create _ _ _ malloc => malloc
  | .prepend _ malloc => malloc
  | .append _ malloc => malloc
  | _ => none

def sessionStep (s : Session α) : ListCall α → Option (Session α)
  | .create linkedListGiven freeFunction compareFunction malloc =>
    let (status, memory, linkedList) :=
      linkedListCreate s.memory linkedListGiven freeFunction compareFunction malloc
    some { s with
      memory := memory
      linkedList := linkedList.getD s.linkedList
      status := status }
  | .prepend data malloc =>
    (linkedListPrepend s.memory s.linkedList data malloc).map fun (status, memory) =>
      { s with memory := memory, status := status }
  | .append data malloc =>
    (linkedListAppend s.memory s.linkedList data malloc).map fun (status, memory) =>
      { s with memory := memory, status := status }
  | .removeFirst =>
    (linkedListRemoveFirst s.memory s.linkedList).map fun (status, memory) =>
      { s with memory := memory, status := status }
  | .find data nodeGiven =>
    (linkedListFind s.memory s.linkedList data nodeGiven).map fun (status, node) =>
      { s with node := node.getD s.node, status := status }
  | .getFirst nodeGiven =>
    (linkedListGetFirst s.memory s.linkedList nodeGiven).map fun (status, node) =>
      { s with node := node.getD s.node, status := status }
  | .getLast nodeGiven =>
    (linkedListGetLast s.memory s.linkedList nodeGiven).map fun (status, node) =>
      { s with node := node.getD s.node, status := status }
  | .isEmpty isEmptyGiven =>
    (linkedListIsEmpty s.memory s.linkedList isEmptyGiven).map fun (status, isEmpty) =>
      { s with isEmpty := isEmpty.getD s.isEmpty, status := status }
  | .length lengthGiven =>
    (linkedListLength s.memory s.linkedList lengthGiven).map fun (status, length) =>
      { s with length := length.getD s.length, status := status }

/-- The sequence after a call, or `none` as long as there is no list. -/
def ListCall.after (q : Option (Sequence α)) : ListCall α → Option (Sequence α)
  | .create linkedListGiven freeFunction compareFunction malloc =>
    match linkedListGiven, freeFunction, malloc with
    | true, some free, some _ => some ⟨free, compareFunction, []⟩
    | _, _, _ => q
  | .prepend data malloc =>
    match data, malloc with
    | some x, some _ => q.map fun q => { q with elements := x :: q.elements }
    | _, _ => q
  | .append data malloc =>
    match data, malloc with
    | some x, some _ => q.map fun q => { q with elements := q.elements ++ [x] }
    | _, _ => q
  | .removeFirst => q.map fun q => { q with elements := q.elements.tail }
  | _ => q

/-- What a call returns on a sequence. -/
def ListCall.returns : Option (Sequence α) → ListCall α → Status
  | _, .create linkedListGiven freeFunction _ malloc =>
    if ¬ linkedListGiven ∨ freeFunction = none then .error .failureInvalidInput
    else if malloc = none then .error .failureCouldNotMalloc
    else .ok ()
  | some _, .prepend data malloc | some _, .append data malloc =>
    if data.isNone then .error .failureInvalidInput
    else if malloc = none then .error .failureCouldNotMalloc
    else .ok ()
  | some q, .removeFirst =>
    if LeoCoin.linkedListIsEmpty q.elements then .error .failureLinkedListEmpty else .ok ()
  | some q, .find data nodeGiven =>
    match data with
    | none => .error .failureInvalidInput
    | some data =>
      if ¬ nodeGiven then .error .failureInvalidInput
      else (LeoCoin.linkedListFind q.compareFunction q.elements data).map fun _ => ()
  | some q, .getFirst nodeGiven =>
    if ¬ nodeGiven then .error .failureInvalidInput
    else if LeoCoin.linkedListIsEmpty q.elements then .error .failureLinkedListEmpty
    else .ok ()
  | some q, .getLast nodeGiven =>
    if ¬ nodeGiven then .error .failureInvalidInput
    else (LeoCoin.linkedListGetLast q.elements).map fun _ => ()
  | some _, .isEmpty given | some _, .length given =>
    if ¬ given then .error .failureInvalidInput else .ok ()
  | none, _ => .error .failureInvalidInput

/-- What the calls that read a list store if they succeed. The first and the
    last node are those of the cells, and the node found is the first whose
    datum compares equal. -/
def ListCall.Stores (q : Sequence α) (cells : List (Nat × α)) (s s' : Session α) :
    ListCall α → Prop
  | .find (some data) _ => ∀ compare, q.compareFunction = some compare →
    s' = { s with
      status := .ok ()
      node := match cells.find? fun cell => compare data cell.2 == 0 with
        | some cell => some cell.1
        | none => s.node }
  | .getFirst _ => s' = { s with status := .ok (), node := cells.head?.map Prod.fst }
  | .getLast _ => s' = { s with status := .ok (), node := cells.getLast?.map Prod.fst }
  | .isEmpty _ =>
    s' = { s with status := .ok (), isEmpty := LeoCoin.linkedListIsEmpty q.elements }
  | .length _ => s' = { s with status := .ok (), length := LeoCoin.linkedListLength q.elements }
  | _ => True

/-- The list of a caller represents the sequence, with its nodes in the given
    cells. As long as there is no list, the pointer to it is null. -/
def Holds (s : Session α) (cells : List (Nat × α)) : Option (Sequence α) → Prop
  | none => s.linkedList = none ∧ cells = []
  | some q => ∃ a, s.linkedList = some a ∧ Represents s.memory a q cells

/-- What a call leads to is what it leads to on the sequence, and a call that
    fails changes nothing. -/
structure Follows (s : Session α) (cells : List (Nat × α)) (q : Option (Sequence α))
    (call : ListCall α) (s' : Session α) (cells' : List (Nat × α)) : Prop where
  holds : Holds s' cells' (call.after q)
  returns : s'.status = call.returns q
  failed : s'.status ≠ .ok () → s' = { s with status := s'.status }
  stored : ∀ q₀, q = some q₀ → s'.status = .ok () → call.Stores q₀ cells s s'

section Calls

variable {s : Session α} {cells : List (Nat × α)} {q : Option (Sequence α)}

/-- A call that is refused. -/
theorem follows_refused (h : Holds s cells q) (call : ListCall α) (code : ReturnCode)
    (hafter : call.after q = q) (hreturns : call.returns q = .error code) :
    Follows s cells q call { s with status := .error code } cells := by
  refine ⟨?_, hreturns.symm, fun _ => rfl, ?_⟩
  · rw [hafter]
    cases q with
    | none => exact h
    | some q => exact h
  · intro _ _ hok
    exact absurd hok (by simp only [reduceCtorEq, not_false_eq_true])

/-- A call that succeeds and leaves the memory as it is. -/
theorem follows_read {q₀ : Sequence α} (h : Holds s cells (some q₀)) (call : ListCall α)
    (s' : Session α) (hmemory : s'.memory = s.memory) (hlist : s'.linkedList = s.linkedList)
    (hstatus : s'.status = .ok ()) (hafter : call.after (some q₀) = some q₀)
    (hreturns : call.returns (some q₀) = .ok ()) (hstored : call.Stores q₀ cells s s') :
    Follows s cells (some q₀) call s' cells := by
  refine ⟨?_, hstatus.trans hreturns.symm, fun hfail => absurd hstatus hfail, ?_⟩
  · rw [hafter, Holds, hmemory, hlist]
    exact h
  · intro q₁ heq _
    rw [Option.some.injEq] at heq
    exact heq ▸ hstored

/-- Without a list every call but the one that creates a list is refused. -/
theorem sessionStep_null (h : Holds s cells none) (call : ListCall α)
    (hcreate : ∀ given free compare malloc, call ≠ .create given free compare malloc) :
    ∃ s' cells', sessionStep s call = some s' ∧ Follows s cells none call s' cells' := by
  have hlist : s.linkedList = none := h.1
  refine ⟨{ s with status := .error .failureInvalidInput }, cells, ?_,
    follows_refused h call _ ?_ ?_⟩
  · cases call with
    | create given free compare malloc => exact absurd rfl (hcreate given free compare malloc)
    | prepend data malloc => simp only [sessionStep, hlist, linkedListPrepend, Option.map_some]
    | append data malloc => simp only [sessionStep, hlist, linkedListAppend, Option.map_some]
    | removeFirst => simp only [sessionStep, hlist, linkedListRemoveFirst, Option.map_some]
    | find data given =>
        simp only [sessionStep, hlist, linkedListFind, Option.map_some, Option.getD_none]
    | getFirst given =>
        simp only [sessionStep, hlist, linkedListGetFirst, Option.map_some, Option.getD_none]
    | getLast given =>
        simp only [sessionStep, hlist, linkedListGetLast, Option.map_some, Option.getD_none]
    | isEmpty given =>
        simp only [sessionStep, hlist, linkedListIsEmpty, Option.map_some, Option.getD_none]
    | length given =>
        simp only [sessionStep, hlist, linkedListLength, Option.map_some, Option.getD_none]
  · cases call with
    | create given free compare malloc => exact absurd rfl (hcreate given free compare malloc)
    | prepend data malloc =>
        rcases data with _ | x
        · rfl
        · rcases malloc with _ | p <;> rfl
    | append data malloc =>
        rcases data with _ | x
        · rfl
        · rcases malloc with _ | p <;> rfl
    | _ => rfl
  · cases call with
    | create given free compare malloc => exact absurd rfl (hcreate given free compare malloc)
    | _ => rfl

theorem sessionStep_create (h : Holds s cells q) (given : Bool) (free : Pointer)
    (compare : Option (α → α → Int)) (malloc : Pointer) :
    ∃ s' cells', sessionStep s (.create given free compare malloc) = some s' ∧
      Follows s cells q (.create given free compare malloc) s' cells' := by
  rcases given with _ | _
  · exact ⟨_, cells, rfl, follows_refused h _ _ rfl rfl⟩
  rcases free with _ | free
  · exact ⟨_, cells, rfl, follows_refused h _ _ rfl rfl⟩
  rcases malloc with _ | a
  · exact ⟨_, cells, rfl, follows_refused h _ _ rfl rfl⟩
  refine ⟨_, [], rfl, ⟨a, rfl, linkedListCreate_represents s.memory free a compare⟩, rfl, ?_, ?_⟩
  · intro hfail
    exact absurd rfl hfail
  · intro _ _ _
    exact trivial

variable {q : Sequence α}

/-- A call that succeeds and changes the list. -/
theorem follows_changed {a : Nat} {cells' : List (Nat × α)} {q' : Sequence α}
    (call : ListCall α) (m' : ListMemory α) (hlist : s.linkedList = some a)
    (hrepresents : Represents m' a q' cells') (hafter : call.after (some q) = some q')
    (hreturns : call.returns (some q) = .ok ())
    (hstores : ∀ s', call.Stores q cells s s') :
    Follows s cells (some q) call { s with memory := m', status := .ok () } cells' := by
  refine ⟨?_, hreturns.symm, fun hfail => absurd rfl hfail, ?_⟩
  · rw [hafter]
    exact ⟨a, hlist, hrepresents⟩
  · intro q₁ heq _
    rw [Option.some.injEq] at heq
    exact heq ▸ hstores _

theorem sessionStep_prepend (h : Holds s cells (some q)) (data : Option α) (malloc : Pointer)
    (hunused : Unused s.memory malloc) :
    ∃ s' cells', sessionStep s (.prepend data malloc) = some s' ∧
      Follows s cells (some q) (.prepend data malloc) s' cells' := by
  have hholds := h
  rcases h with ⟨a, hlist, hrepresents⟩
  rcases data with _ | x
  · refine ⟨_, cells, ?_, follows_refused hholds _ _ rfl rfl⟩
    simp only [sessionStep, hlist, linkedListPrepend, Option.map_some]
  rcases malloc with _ | p
  · refine ⟨_, cells, ?_, follows_refused hholds _ _ rfl rfl⟩
    simp only [sessionStep, hlist, linkedListPrepend, Option.map_some]
  rcases linkedListPrepend_represents hrepresents x p hunused with ⟨m', hprepend, hrepresents'⟩
  refine ⟨{ s with memory := m', status := .ok () }, (p, x) :: cells, ?_,
    follows_changed _ m' hlist hrepresents' rfl rfl fun _ => trivial⟩
  simp only [sessionStep, hlist, hprepend, Option.map_some]

theorem sessionStep_append (h : Holds s cells (some q)) (data : Option α) (malloc : Pointer)
    (hunused : Unused s.memory malloc) :
    ∃ s' cells', sessionStep s (.append data malloc) = some s' ∧
      Follows s cells (some q) (.append data malloc) s' cells' := by
  have hholds := h
  rcases h with ⟨a, hlist, hrepresents⟩
  rcases data with _ | x
  · refine ⟨_, cells, ?_, follows_refused hholds _ _ rfl rfl⟩
    simp only [sessionStep, hlist, linkedListAppend, Option.map_some]
  rcases malloc with _ | p
  · refine ⟨_, cells, ?_, follows_refused hholds _ .failureCouldNotMalloc rfl rfl⟩
    simp only [sessionStep, hlist, linkedListAppend_null hrepresents x, Option.map_some]
  rcases linkedListAppend_represents hrepresents x p hunused with ⟨m', happend, hrepresents'⟩
  refine ⟨{ s with memory := m', status := .ok () }, cells ++ [(p, x)], ?_,
    follows_changed _ m' hlist hrepresents' rfl rfl fun _ => trivial⟩
  simp only [sessionStep, hlist, happend, Option.map_some]

theorem sessionStep_removeFirst (h : Holds s cells (some q)) :
    ∃ s' cells', sessionStep s .removeFirst = some s' ∧
      Follows s cells (some q) .removeFirst s' cells' := by
  have hholds := h
  rcases h with ⟨a, hlist, hrepresents⟩
  cases cells with
  | nil =>
      have hempty : q.elements = [] := hrepresents.elements.symm
      refine ⟨_, [], ?_,
        follows_refused hholds .removeFirst .failureLinkedListEmpty ?_ ?_⟩
      · simp only [sessionStep, hlist, linkedListRemoveFirst_empty hrepresents, Option.map_some]
      · simp only [ListCall.after, Option.map_some, hempty, List.tail_nil]
        rw [← hempty]
      · simp only [ListCall.returns, LeoCoin.linkedListIsEmpty, hempty, List.isEmpty_nil, if_true]
  | cons cell cells =>
      rcases linkedListRemoveFirst_represents hrepresents with ⟨m', hremove, hrepresents', _⟩
      refine ⟨{ s with memory := m', status := .ok () }, cells, ?_,
        follows_changed _ m' hlist hrepresents' rfl ?_ fun _ => trivial⟩
      · simp only [sessionStep, hlist, hremove, Option.map_some]
      · rw [ListCall.returns, ← hrepresents.elements]
        rfl

theorem sessionStep_find (h : Holds s cells (some q)) (data : Option α) (given : Bool) :
    ∃ s' cells', sessionStep s (.find data given) = some s' ∧
      Follows s cells (some q) (.find data given) s' cells' := by
  have hholds := h
  rcases h with ⟨a, hlist, hrepresents⟩
  rcases data with _ | data
  · refine ⟨_, cells, ?_, follows_refused hholds _ _ rfl rfl⟩
    simp only [sessionStep, hlist, linkedListFind, Option.map_some, Option.getD_none]
  rcases given with _ | _
  · refine ⟨_, cells, ?_, follows_refused hholds _ _ rfl rfl⟩
    simp only [sessionStep, hlist, linkedListFind, Bool.false_eq_true, not_false_eq_true, if_true,
      Option.map_some, Option.getD_none]
  have hfind := linkedListFind_represents hrepresents data
  rcases hcompare : q.compareFunction with _ | compare
  · rw [hcompare] at hfind
    refine ⟨_, cells, ?_, follows_refused hholds _ .failureLinkedListNoCompareFunction rfl ?_⟩
    · simp only [sessionStep, hlist, hfind, Option.map_some, Option.getD_none]
    · simp only [ListCall.returns, not_true_eq_false, if_false, LeoCoin.linkedListFind, hcompare]
      rfl
  · rw [hcompare] at hfind
    refine ⟨{ s with
      status := .ok ()
      node := match cells.find? fun cell => compare data cell.2 == 0 with
        | some cell => some cell.1
        | none => s.node }, cells, ?_, follows_read hholds _ _ rfl rfl rfl rfl ?_ ?_⟩
    · simp only [sessionStep, hlist, hfind, Option.map_some]
      cases cells.find? fun cell => compare data cell.2 == 0 with
      | none => rfl
      | some cell => rfl
    · simp only [ListCall.returns, not_true_eq_false, if_false, LeoCoin.linkedListFind, hcompare]
      rfl
    · intro compare' heq
      rw [hcompare, Option.some.injEq] at heq
      subst heq
      rfl

theorem sessionStep_getFirst (h : Holds s cells (some q)) (given : Bool) :
    ∃ s' cells', sessionStep s (.getFirst given) = some s' ∧
      Follows s cells (some q) (.getFirst given) s' cells' := by
  have hholds := h
  rcases h with ⟨a, hlist, hrepresents⟩
  rcases given with _ | _
  · refine ⟨_, cells, ?_, follows_refused hholds _ _ rfl rfl⟩
    simp only [sessionStep, hlist, linkedListGetFirst, Bool.false_eq_true, not_false_eq_true,
      if_true, Option.map_some, Option.getD_none]
  have hget := linkedListGetFirst_represents hrepresents
  have helements := hrepresents.elements
  cases cells with
  | nil =>
      refine ⟨_, [], ?_, follows_refused hholds _ .failureLinkedListEmpty rfl ?_⟩
      · simp only [sessionStep, hlist, hget, Option.map_some, Option.getD_none]
      · rw [ListCall.returns, ← helements]
        rfl
  | cons cell cells =>
      refine ⟨{ s with status := .ok (), node := some cell.1 }, cell :: cells, ?_,
        follows_read hholds _ _ rfl rfl rfl rfl ?_ rfl⟩
      · simp only [sessionStep, hlist, hget, Option.map_some, Option.getD_some]
      · rw [ListCall.returns, ← helements]
        rfl

theorem sessionStep_getLast (h : Holds s cells (some q)) (given : Bool) :
    ∃ s' cells', sessionStep s (.getLast given) = some s' ∧
      Follows s cells (some q) (.getLast given) s' cells' := by
  have hholds := h
  rcases h with ⟨a, hlist, hrepresents⟩
  rcases given with _ | _
  · refine ⟨_, cells, ?_, follows_refused hholds _ _ rfl rfl⟩
    simp only [sessionStep, hlist, linkedListGetLast, Bool.false_eq_true, not_false_eq_true,
      if_true, Option.map_some, Option.getD_none]
  have hget := linkedListGetLast_represents hrepresents
  have hlast : q.elements.getLast? = cells.getLast?.map Prod.snd := by
    rw [← hrepresents.elements, List.getLast?_map]
  rcases hcell : cells.getLast? with _ | cell
  · rw [hcell] at hget hlast
    refine ⟨_, cells, ?_, follows_refused hholds _ .failureLinkedListEmpty rfl ?_⟩
    · simp only [sessionStep, hlist, hget, Option.map_some, Option.getD_none]
    · simp only [ListCall.returns, not_true_eq_false, if_false, LeoCoin.linkedListGetLast, hlast]
      rfl
  · rw [hcell] at hget hlast
    refine ⟨{ s with status := .ok (), node := some cell.1 }, cells, ?_,
      follows_read hholds _ _ rfl rfl rfl rfl ?_ ?_⟩
    · simp only [sessionStep, hlist, hget, Option.map_some, Option.getD_some]
    · simp only [ListCall.returns, not_true_eq_false, if_false, LeoCoin.linkedListGetLast, hlast]
      rfl
    · rw [ListCall.Stores, hcell]
      rfl

theorem sessionStep_isEmpty (h : Holds s cells (some q)) (given : Bool) :
    ∃ s' cells', sessionStep s (.isEmpty given) = some s' ∧
      Follows s cells (some q) (.isEmpty given) s' cells' := by
  have hholds := h
  rcases h with ⟨a, hlist, hrepresents⟩
  rcases given with _ | _
  · refine ⟨_, cells, ?_, follows_refused hholds _ _ rfl rfl⟩
    simp only [sessionStep, hlist, linkedListIsEmpty, Bool.false_eq_true, not_false_eq_true,
      if_true, Option.map_some, Option.getD_none]
  · refine ⟨{ s with status := .ok (), isEmpty := LeoCoin.linkedListIsEmpty q.elements }, cells, ?_,
      follows_read hholds _ _ rfl rfl rfl rfl rfl rfl⟩
    simp only [sessionStep, hlist, linkedListIsEmpty_represents hrepresents, Option.map_some,
      Option.getD_some]

theorem sessionStep_length (h : Holds s cells (some q)) (given : Bool) :
    ∃ s' cells', sessionStep s (.length given) = some s' ∧
      Follows s cells (some q) (.length given) s' cells' := by
  have hholds := h
  rcases h with ⟨a, hlist, hrepresents⟩
  rcases given with _ | _
  · refine ⟨_, cells, ?_, follows_refused hholds _ _ rfl rfl⟩
    simp only [sessionStep, hlist, linkedListLength, Bool.false_eq_true, not_false_eq_true,
      if_true, Option.map_some, Option.getD_none]
  · refine ⟨{ s with status := .ok (), length := LeoCoin.linkedListLength q.elements }, cells, ?_,
      follows_read hholds _ _ rfl rfl rfl rfl rfl rfl⟩
    simp only [sessionStep, hlist, linkedListLength_represents hrepresents, Option.map_some,
      Option.getD_some]

end Calls

/-- A call does what it does on the sequence. -/
theorem sessionStep_follows {s : Session α} {cells : List (Nat × α)} {q : Option (Sequence α)}
    (h : Holds s cells q) (call : ListCall α) (hunused : Unused s.memory call.malloc) :
    ∃ s' cells', sessionStep s call = some s' ∧ Follows s cells q call s' cells' := by
  cases q with
  | none =>
      cases call with
      | create given free compare malloc => exact sessionStep_create h given free compare malloc
      | _ => exact sessionStep_null h _ (fun _ _ _ _ heq => nomatch heq)
  | some q =>
      cases call with
      | create given free compare malloc => exact sessionStep_create h given free compare malloc
      | prepend data malloc => exact sessionStep_prepend h data malloc hunused
      | append data malloc => exact sessionStep_append h data malloc hunused
      | removeFirst => exact sessionStep_removeFirst h
      | find data given => exact sessionStep_find h data given
      | getFirst given => exact sessionStep_getFirst h given
      | getLast given => exact sessionStep_getLast h given
      | isEmpty given => exact sessionStep_isEmpty h given
      | length given => exact sessionStep_length h given

/-- A run of calls does what the calls do on the sequence. -/
theorem run_follows (calls : List (ListCall α)) (s : Session α) (cells : List (Nat × α))
    (q : Option (Sequence α)) (h : Holds s cells q)
    (hmalloc : Meets sessionStep (fun s call => Unused s.memory call.malloc) s calls) :
    ∃ s' cells', run sessionStep s calls = some s' ∧
      Holds s' cells' (calls.foldl ListCall.after q) := by
  -- What a call does on the sequence is carried from call to call.
  induction calls generalizing s cells q with
  | nil => exact ⟨s, cells, rfl, h⟩
  | cons call calls ih =>
      rcases sessionStep_follows h call hmalloc.1 with ⟨s₁, cells₁, hstep, hfollows⟩
      rcases ih s₁ cells₁ _ hfollows.holds (hmalloc.2 s₁ hstep) with ⟨s', cells', hrun, hholds⟩
      exact ⟨s', cells', (run_cons _ _ _ _).mpr ⟨s₁, hstep, hrun⟩, hholds⟩

/-- After any calls, whether or not they were granted memory, the list
    represents the sequence that the calls make. The nodes reachable from its
    head are distinct cells that end in a null pointer and hold the elements in
    order. Every further call does what it does on the sequence, and changes
    nothing if it fails. Destroying the list frees each element once. -/
theorem linkedList_represents_sequence (s₀ : Session α) (hnull : s₀.linkedList = none)
    (calls : List (ListCall α))
    (hmalloc : Meets sessionStep (fun s call => Unused s.memory call.malloc) s₀ calls) :
    ∃ s cells, run sessionStep s₀ calls = some s ∧
      Holds s cells (calls.foldl ListCall.after none) ∧
      (∀ call, Unused s.memory call.malloc → ∃ s' cells', sessionStep s call = some s' ∧
        Follows s cells (calls.foldl ListCall.after none) call s' cells') ∧
      ∀ q, calls.foldl ListCall.after none = some q →
        (∃ a list, s.linkedList = some a ∧ s.memory.lists a = some list ∧
          ∀ p, Reachable s.memory.nodes list.head p ↔ p ∈ cells.map Prod.fst) ∧
        ∃ m', linkedListDestroy s.memory s.linkedList = some (.ok (), m') ∧
          m'.freed = s.memory.freed ++ q.elements.map (fun x => (q.freeFunction, x)) ∧
          ∀ p, m'.nodes p = if p ∈ cells.map Prod.fst then none else s.memory.nodes p := by
  rcases run_follows calls s₀ [] none ⟨hnull, rfl⟩ hmalloc with ⟨s, cells, hrun, hholds⟩
  refine ⟨s, cells, hrun, hholds, fun call => sessionStep_follows hholds call, ?_⟩
  intro q hq
  rw [hq] at hholds
  rcases hholds with ⟨a, hlist, hrepresents⟩
  rcases hrepresents.object with ⟨head, hobject, hsegment⟩
  refine ⟨⟨a, _, hlist, hobject, hsegment.reachable_iff⟩, ?_⟩
  rcases linkedListDestroy_represents hrepresents with ⟨m', hdestroy, hfreed, hnodes, _⟩
  rw [hlist]
  exact ⟨m', hdestroy, hfreed, hnodes⟩

/-- A caller without a list, in a memory without objects. -/
def emptySession : Session Nat where
  memory := ⟨fun _ => none, fun _ => none, []⟩
  linkedList := none
  node := none
  length := 0
  isEmpty := false
  status := .ok ()

/-- A list is made at address 8, a node is prepended at 16, and another one is
    refused. -/
theorem linkedList_represents_sequence_one :
    ∃ s cells, run sessionStep emptySession
        [.create true (some 1) none (some 8), .prepend (some 5) (some 16),
          .append (some 6) none] = some s ∧
      Holds s cells (some ⟨1, none, [5]⟩) := by
  have hcalls := linkedList_represents_sequence emptySession rfl
    [.create true (some 1) none (some 8), .prepend (some 5) (some 16), .append (some 6) none]
    (by
      refine ⟨?_, fun s₁ h₁ => ⟨?_, fun s₂ _ => ⟨?_, fun _ _ => trivial⟩⟩⟩
      · intro p hp
        cases hp
        exact ⟨by decide, by decide, rfl, rfl⟩
      · cases h₁
        intro p hp
        cases hp
        exact ⟨by decide, by decide, rfl, rfl⟩
      · intro p hp
        exact nomatch hp)
  rcases hcalls with ⟨s, cells, hrun, hholds, _⟩
  exact ⟨s, cells, hrun, hholds⟩

end LeoCoin.OnNodes
