import LeoCoin.Core.AcceptLoop
import LeoCoin.Library.Run

/-!
# Accept Loop Runs

What any run of an accept loop amounts to.

A run is a sequence of rounds, and a round that does not fail is a sequence of
events: what the other threads do, and then the request, if a connection was
accepted. The state that the server shares is the one these events lead to, one
after the other, and the return code is that of the last request. What a request
ends with plays no part in how the loop goes on.

The loop returns for one of two reasons. It was asked to stop, and then only the
socket it listens on is open; or a call of its own failed in the last round, and
then the connection of that round may be open as well.

## Main definitions

* `AcceptRound.failure`: The call of the loop that fails in a round.
* `LoopEvent`, `AcceptRound.events`: The events of a round.
* `eventStep`: What an event does to the shared state and to the code.
* `RoundEnds`: How a round ends.

## Theorems

* `acceptTest_ends`, `acceptStep_ends`: What a round does.
* `acceptRun_spec`: What a run does.
-/

namespace LeoCoin

/-- The code the loop is left with in a round in which a call of its own fails,
    and the connection that is open then. -/
def AcceptRound.failure {μ ρ : Type} (printProgress : Bool) (r : AcceptRound μ ρ) :
    Option (ReturnCode × List Int) :=
  if r.poll = -1 then some (.failureNetworkFunction, [])
  else if r.poll = 0 then none
  else if r.connFd < 0 then some (.failureNetworkFunction, [])
  else if r.clientLen ≠ sizeofSockaddrIn6 then some (.failureBufferTooSmall, [r.connFd])
  else match connectionLines printProgress r with
  | .error code => some (code, [r.connFd])
  | .ok _ => none

/-- An act of another thread, or a request that is handled. -/
inductive LoopEvent (μ ρ : Type) where
  | meanwhile (m : μ)
  | request (r : ρ)

/-- A connection is accepted in the round and its request is handled. -/
def AcceptRound.handles {μ ρ : Type} (printProgress : Bool) (r : AcceptRound μ ρ) : Bool :=
  r.poll ≠ 0 ∧ (r.failure printProgress).isNone

def AcceptRound.events {μ ρ : Type} (printProgress : Bool) (r : AcceptRound μ ρ) :
    List (LoopEvent μ ρ) :=
  r.meanwhile.map .meanwhile ++ if r.handles printProgress then [.request r.request] else []

/-- The return code after a handler has ended. One that does not come back
    leaves it. -/
def codeAfter (ending : Except Interruption Unit) (code : Except ReturnCode Unit) :
    Except ReturnCode Unit :=
  match ending with
  | .ok () => .ok ()
  | .error (.failed failed) => .error failed
  | .error .blocked => code

section Loop

variable {σ μ ρ : Type} (handler : σ → ρ → Option (HandlerOutcome σ))
  (other : σ → μ → Option σ) (printProgress : Bool) (retrying : String)

/-- The shared state and the return code after an event. -/
def eventStep (s : σ × Except ReturnCode Unit) :
    LoopEvent μ ρ → Option (σ × Except ReturnCode Unit)
  | .meanwhile m => (other s.1 m).map fun shared => (shared, s.2)
  | .request q => (handler s.1 q).map fun out => (out.shared, codeAfter out.ending s.2)

/-- The acts of the other threads are a run of events. -/
theorem run_meanwhile (acts : List μ) (shared shared' : σ) (code : Except ReturnCode Unit)
    (h : acts.foldlM other shared = some shared') :
    Run.run (eventStep handler other) (shared, code) (acts.map LoopEvent.meanwhile) =
      some (shared', code) := by
  induction acts generalizing shared with
  | nil =>
      simp only [List.foldlM_nil, Option.pure_def, Option.some.injEq] at h
      rw [h]
      rfl
  | cons m acts ih =>
      rw [List.foldlM_cons, Option.bind_eq_bind, Option.bind_eq_some_iff] at h
      rcases h with ⟨next, hnext, hrest⟩
      refine (Run.run_cons _ _ _ _).mpr ⟨(next, code), ?_, ih next hrest⟩
      rw [eventStep, hnext, Option.map_some]

/-- How a round that begins with `s` ends: at the head of the loop again, with
    a return on request or after a failure, or in the handler. -/
inductive RoundEnds (r : AcceptRound μ ρ) (s : ServerLoop σ) : ServerState σ → Prop
  | goesOn (shared : σ) (code : Except ReturnCode Unit) (printed : List String)
      (hfailure : r.failure printProgress = none) (hstop : r.shouldStop = false)
      (hevents : Run.run (eventStep handler other) (s.shared, s.returnCode)
        (r.events printProgress) = some (shared, code)) :
      RoundEnds r s (.accepting ⟨shared, code, s.descriptors, printed⟩)
  | stops (shared : σ) (code : Except ReturnCode Unit) (printed : List String)
      (hfailure : r.failure printProgress = none) (hstop : r.shouldStop = true)
      (hevents : Run.run (eventStep handler other) (s.shared, s.returnCode)
        (r.events printProgress) = some (shared, code)) :
      RoundEnds r s (.returned ⟨shared, code, s.descriptors, printed⟩)
  | fails (shared : σ) (code : Except ReturnCode Unit) (failed : ReturnCode) (left : List Int)
      (printed : List String) (hfailure : r.failure printProgress = some (failed, left))
      (hevents : Run.run (eventStep handler other) (s.shared, s.returnCode)
        (r.events printProgress) = some (shared, code)) :
      RoundEnds r s (.returned ⟨shared, .error failed, left ++ s.descriptors, printed⟩)
  | blocks (shared : σ) (printed : List String) (hfailure : r.failure printProgress = none)
      (hevents : Run.run (eventStep handler other) (s.shared, s.returnCode)
        (r.events printProgress) = some (shared, s.returnCode)) :
      RoundEnds r s (.blocked ⟨shared, s.returnCode, r.connFd :: s.descriptors, printed⟩)

theorem serverEnd_some {alloc : Allocator} {s : ServerLoop σ} {st : ServerState σ}
    (h : serverEnd alloc s = some st) : st = .returned s := by
  unfold serverEnd at h
  by_cases hgrant : alloc.grants 0 sizeofReturnCode = true
  · rw [if_pos hgrant, Option.some.injEq] at h
    exact h.symm
  · rw [if_neg hgrant] at h
    exact absurd h (by simp only [reduceCtorEq, not_false_eq_true])

/-- The test at the end of a round that did not fail. -/
theorem acceptTest_ends (r : AcceptRound μ ρ) (s : ServerLoop σ) (shared : σ)
    (code : Except ReturnCode Unit) (printed : List String) (st : ServerState σ)
    (hfailure : r.failure printProgress = none)
    (hevents : Run.run (eventStep handler other) (s.shared, s.returnCode)
      (r.events printProgress) = some (shared, code))
    (h : acceptTest r ⟨shared, code, s.descriptors, printed⟩ = some st) :
    RoundEnds handler other printProgress r s st := by
  unfold acceptTest at h
  by_cases hstop : r.shouldStop = true
  · rw [if_pos hstop] at h
    rw [serverEnd_some h]
    exact .stops shared code printed hfailure hstop hevents
  · rw [if_neg hstop, Option.some.injEq] at h
    rw [← h]
    exact .goesOn shared code printed hfailure (Bool.eq_false_of_not_eq_true hstop) hevents

/-- What a round does. -/
theorem acceptStep_ends (r : AcceptRound μ ρ) (s : ServerLoop σ) (st : ServerState σ)
    (h : acceptStep handler other printProgress retrying (.accepting s) r = some st) :
    RoundEnds handler other printProgress r s st := by
  unfold acceptStep at h
  rcases hmeanwhile : r.meanwhile.foldlM other s.shared with _ | shared
  · simp only [hmeanwhile, reduceCtorEq] at h
  simp only [hmeanwhile] at h
  have hacts := run_meanwhile handler other r.meanwhile s.shared shared s.returnCode hmeanwhile
  -- A round in which no request is handled has no other events.
  have hquiet : r.handles printProgress = false →
      Run.run (eventStep handler other) (s.shared, s.returnCode) (r.events printProgress) =
        some (shared, s.returnCode) := by
    intro hnot
    rw [AcceptRound.events, hnot, if_neg (by decide), List.append_nil]
    exact hacts
  have hfails : ∀ failed left printed, r.failure printProgress = some (failed, left) →
      st = .returned ⟨shared, .error failed, left ++ s.descriptors, printed⟩ →
      RoundEnds handler other printProgress r s st := by
    rintro failed left printed hfailure rfl
    refine .fails shared s.returnCode failed left printed hfailure (hquiet ?_)
    simp only [AcceptRound.handles, hfailure, Option.isNone_some, Bool.false_eq_true, and_false,
      decide_false]
  unfold acceptConnection at h
  by_cases hpoll : r.poll = -1
  · rw [if_pos hpoll] at h
    exact hfails _ [] _ (by rw [AcceptRound.failure, if_pos hpoll]) (serverEnd_some h)
  rw [if_neg hpoll] at h
  by_cases hnothing : r.poll = 0
  · rw [if_pos hnothing] at h
    refine acceptTest_ends handler other printProgress r s shared s.returnCode s.printed st
      (by rw [AcceptRound.failure, if_neg hpoll, if_pos hnothing]) (hquiet ?_) h
    simp only [AcceptRound.handles, hnothing, ne_eq, not_true_eq_false, false_and, decide_false]
  rw [if_neg hnothing] at h
  by_cases haccept : r.connFd < 0
  · rw [if_pos haccept] at h
    exact hfails _ [] _ (by
      rw [AcceptRound.failure, if_neg hpoll, if_neg hnothing, if_pos haccept]) (serverEnd_some h)
  rw [if_neg haccept] at h
  simp only at h
  by_cases hlen : r.clientLen ≠ sizeofSockaddrIn6
  · rw [if_pos hlen] at h
    exact hfails _ [r.connFd] _ (by
      rw [AcceptRound.failure, if_neg hpoll, if_neg hnothing, if_neg haccept, if_pos hlen])
      (serverEnd_some h)
  rw [if_neg hlen] at h
  rcases hlines : connectionLines printProgress r with code | lines
  · simp only [hlines] at h
    exact hfails code [r.connFd] _ (by
      rw [AcceptRound.failure, if_neg hpoll, if_neg hnothing, if_neg haccept, if_neg hlen, hlines])
      (serverEnd_some h)
  simp only [hlines] at h
  have hfailure : r.failure printProgress = none := by
    rw [AcceptRound.failure, if_neg hpoll, if_neg hnothing, if_neg haccept, if_neg hlen, hlines]
  have hhandles : r.handles printProgress = true := by
    simp only [AcceptRound.handles, hfailure, hnothing, Option.isNone_none, ne_eq,
      not_false_eq_true, and_self, decide_true]
  unfold handleConnection at h
  rcases hout : handler shared r.request with _ | out
  · simp only [hout, reduceCtorEq] at h
  simp only [hout] at h
  -- The request follows what the other threads did.
  have hevents : Run.run (eventStep handler other) (s.shared, s.returnCode)
      (r.events printProgress) = some (out.shared, codeAfter out.ending s.returnCode) := by
    rw [AcceptRound.events, hhandles, if_pos rfl]
    refine (Run.run_append _ _ _ _).mpr ⟨_, hacts, (Run.run_cons _ _ _ _).mpr ⟨_, ?_, rfl⟩⟩
    rw [eventStep, hout, Option.map_some]
  rcases hending : out.ending with (code | _) | _
  · simp only [hending, List.erase_cons_head] at h
    rw [hending] at hevents
    exact acceptTest_ends handler other printProgress r s _ _ _ st hfailure hevents h
  · simp only [hending, Option.some.injEq] at h
    rw [hending] at hevents
    rw [← h]
    exact .blocks out.shared _ hfailure hevents
  · simp only [hending, List.erase_cons_head] at h
    rw [hending] at hevents
    exact acceptTest_ends handler other printProgress r s _ _ _ st hfailure hevents h

/-- The state at the head of the loop, in the handler or after the return. -/
def ServerState.loop : ServerState σ → ServerLoop σ
  | .accepting s => s
  | .blocked s => s
  | .returned s => s

/-- The round is not the last one. -/
def AcceptRound.GoesOn (r : AcceptRound μ ρ) : Prop :=
  r.failure printProgress = none ∧ r.shouldStop = false

/-- What a run from `s` leads to: at the head of the loop no descriptor is left;
    after the return it is those of a failure; and the code is that of the last
    request, unless a call of the loop failed. -/
def RunEnds (s : ServerLoop σ) (rounds : List (AcceptRound μ ρ))
    (code : Except ReturnCode Unit) : ServerState σ → Prop
  | .accepting s' => (∀ r ∈ rounds, r.GoesOn printProgress) ∧ s'.returnCode = code ∧
      s'.descriptors = s.descriptors
  | .blocked s' => ∃ init last, rounds = init ++ [last] ∧
      (∀ r ∈ init, r.GoesOn printProgress) ∧ s'.returnCode = code ∧
        s'.descriptors = last.connFd :: s.descriptors
  | .returned s' => ∃ init last, rounds = init ++ [last] ∧
      (∀ r ∈ init, r.GoesOn printProgress) ∧
      ((last.failure printProgress = none ∧ last.shouldStop = true ∧ s'.returnCode = code ∧
          s'.descriptors = s.descriptors) ∨
        ∃ failed left, last.failure printProgress = some (failed, left) ∧
          s'.returnCode = .error failed ∧ s'.descriptors = left ++ s.descriptors)

/-- A run of the loop is a run of its events. The induction is on the rounds
    from the first one on. -/
theorem acceptRun_spec (rounds : List (AcceptRound μ ρ)) (s : ServerLoop σ) (st : ServerState σ)
    (h : Run.run (acceptStep handler other printProgress retrying) (.accepting s) rounds =
      some st) :
    ∃ code, Run.run (eventStep handler other) (s.shared, s.returnCode)
        (rounds.flatMap (AcceptRound.events printProgress)) = some (st.loop.shared, code) ∧
      RunEnds printProgress s rounds code st := by
  induction rounds generalizing s with
  | nil =>
      rw [Run.run, Option.some.injEq] at h
      rw [← h]
      exact ⟨s.returnCode, rfl, fun _ hr => absurd hr List.not_mem_nil, rfl, rfl⟩
  | cons r rounds ih =>
      rcases (Run.run_cons _ _ _ _).mp h with ⟨next, hstep, hrest⟩
      have hnothing : ∀ t, (∀ s', t ≠ ServerState.accepting s') →
          Run.run (acceptStep handler other printProgress retrying) t rounds = some st →
          rounds = [] ∧ t = st := by
        intro t ht hrun
        rcases rounds with _ | ⟨q, rounds⟩
        · exact ⟨rfl, Option.some.inj hrun⟩
        · rcases (Run.run_cons _ _ _ _).mp hrun with ⟨t', hstep', _⟩
          cases t with
          | accepting s' => exact absurd rfl (ht s')
          | blocked s' =>
              exact absurd hstep' (by simp only [acceptStep, reduceCtorEq, not_false_eq_true])
          | returned s' =>
              exact absurd hstep' (by simp only [acceptStep, reduceCtorEq, not_false_eq_true])
      cases acceptStep_ends handler other printProgress retrying r s next hstep with
      | goesOn shared code printed hfailure hstop hevents =>
          rcases ih _ hrest with ⟨code', hrun, hends⟩
          refine ⟨code', ?_, ?_⟩
          · rw [List.flatMap_cons]
            exact (Run.run_append _ _ _ _).mpr ⟨_, hevents, hrun⟩
          · have hfirst : r.GoesOn printProgress := ⟨hfailure, hstop⟩
            cases st with
            | accepting s' =>
                exact ⟨List.forall_mem_cons.mpr ⟨hfirst, hends.1⟩, hends.2⟩
            | blocked s' =>
                rcases hends with ⟨init, last, rfl, hinit, hlast⟩
                exact ⟨r :: init, last, rfl, List.forall_mem_cons.mpr ⟨hfirst, hinit⟩, hlast⟩
            | returned s' =>
                rcases hends with ⟨init, last, rfl, hinit, hlast⟩
                exact ⟨r :: init, last, rfl, List.forall_mem_cons.mpr ⟨hfirst, hinit⟩, hlast⟩
      | stops shared code printed hfailure hstop hevents =>
          rcases hnothing _ (by simp only [ne_eq, reduceCtorEq, not_false_eq_true,
            implies_true]) hrest with ⟨rfl, rfl⟩
          refine ⟨code, ?_, [], r, rfl, fun _ hr => absurd hr List.not_mem_nil,
            Or.inl ⟨hfailure, hstop, rfl, rfl⟩⟩
          rw [List.flatMap_singleton]
          exact hevents
      | fails shared code failed left printed hfailure hevents =>
          rcases hnothing _ (by simp only [ne_eq, reduceCtorEq, not_false_eq_true,
            implies_true]) hrest with ⟨rfl, rfl⟩
          refine ⟨code, ?_, [], r, rfl, fun _ hr => absurd hr List.not_mem_nil,
            Or.inr ⟨failed, left, hfailure, rfl, rfl⟩⟩
          rw [List.flatMap_singleton]
          exact hevents
      | blocks shared printed hfailure hevents =>
          rcases hnothing _ (by simp only [ne_eq, reduceCtorEq, not_false_eq_true,
            implies_true]) hrest with ⟨rfl, rfl⟩
          refine ⟨s.returnCode, ?_, [], r, rfl, fun _ hr => absurd hr List.not_mem_nil, rfl, rfl⟩
          rw [List.flatMap_singleton]
          exact hevents

end Loop

end LeoCoin
