import EffiLib.Coroutines.SingleRunning

/-!
# Deleting a fiber

When a coroutine function returns, `fiberProc` deletes the fiber on which it executes itself.
`DeleteFiber` ends the thread there, so the rest of the clean-up and the switch to the main
fiber are never reached. `DeleteFiber` belongs to the system: it is a parameter here, and what
is taken from its documentation is a hypothesis.
-/

namespace EffiLib.Coroutines

open Runs

/-- What ends a run: one of the stops, or the end of the thread. The second is not an error of the
program. -/
inductive Halt where
  | stopped (stop : Stop)
  | threadEnded
deriving DecidableEq, Repr

/-- A fiber that was created and has not been deleted. `DeleteFiber` may be called for such a
fiber only. -/
def LiveFiber (state : State) (fiber : Nat) : Prop :=
  ∃ begun, state.fibers[fiber]? = some begun ∧ begun ≠ .deleted

/-- A state in which a fiber has been destroyed. Its number is not given to another one. -/
def destroyed (state : State) (fiber : Nat) : State :=
  { state with fibers := state.fibers.set fiber .deleted }

/-- What is documented of `DeleteFiber`, which leaves no state where it ends the thread. It
destroys a live fiber that does not execute. On the fiber that executes it ends the thread;
with `selfReturns` it is taken to destroy that fiber as well and to return. -/
structure Documented (selfReturns : Bool) (deleteFiber : State → Nat → Option State) : Prop where
  destroys : ∀ state fiber, LiveFiber state fiber →
    (state.executing = some fiber → selfReturns = true) →
    deleteFiber state fiber = some (destroyed state fiber)
  ends : ∀ state fiber, state.executing = some fiber → selfReturns = false →
    deleteFiber state fiber = none

section Parameters

variable (deleteFiber : State → Nat → Option State) (stale : Nat → Nat)

/-- `_co_delete`. A `ctx` that was never set holds what `malloc` left there. The structure is
freed behind the call of `DeleteFiber`, if that returns. -/
def coDelete (state : State) (co : Nat) : Except Halt State := do
  let coroutine ← (deref state co).mapError .stopped
  match deleteFiber state (coroutine.ctx.getD (stale co)) with
  | none => .error .threadEnded
  | some state => .ok { state with coroutines := state.coroutines.set co none }

/-- `fiberProc` from the return of the coroutine function on. It runs on the fiber that it
deletes. -/
def fiberProcEnd (state : State) : Except Halt State :=
  match current state with
  | none => .error (.stopped .notInCoroutine)
  | some (id, co) => do
    let state ← coDelete deleteFiber stale state co
    let _ ← (slotAt state.sch id).mapError .stopped
    .ok { state with
      sch := { state.sch with
        nco := state.sch.nco - 1
        running := -1
        co := state.sch.co.set id ⟨none, true⟩ }
      executing := none }

/-- One action, with the system's `DeleteFiber` at the end of a coroutine. The other actions are
as before. -/
def performWith (watched : Watched) : Action → Except Halt Watched
  | .finish => do
    let state ← fiberProcEnd deleteFiber stale watched.state
    match current watched.state with
    | none => .error (.stopped .notInCoroutine)
    | some (_, co) => .ok ⟨state, Function.update watched.returned co none⟩
  | action => (perform watched action).mapError .stopped

/-! ## The end of a coroutine -/

variable (selfReturns : Bool)

/-- The fiber that executes is live. It was started and not deleted. -/
theorem executes_live (watched : Watched) (fiber id co : Nat)
    (executes : Executes watched fiber id co) : LiveFiber watched.state fiber :=
  ⟨.started id co, executes.started, by simp⟩

/-- If `DeleteFiber` returned on the fiber that executes, the whole of `fiberProc` would be
done. -/
theorem proc_end_returns (documented : Documented true deleteFiber) (watched : Watched)
    (fiber id co : Nat) (consistent : Consistent watched)
    (executes : Executes watched fiber id co) :
    fiberProcEnd deleteFiber stale watched.state = .ok (finished watched.state id co fiber) := by
  have slot := slot_read _ _ _ ((consistent.placed id co).mpr executes.returned)
  have struct := deref_read _ _ _ executes.present
  have deleted := documented.destroys watched.state fiber
    (executes_live watched fiber id co executes) fun _ => rfl
  simp only [fiberProcEnd, executes_current watched fiber id co executes, coDelete, struct,
    Except.mapError, bind, Except.bind, Option.getD_some, deleted, destroyed, slot]
  rfl

/-- As documented, the thread ends in the middle of it. `DeleteFiber` is called for the fiber that
executes, before the schedule is put in order. -/
theorem proc_end_ends (documented : Documented false deleteFiber) (watched : Watched)
    (fiber id co : Nat) (executes : Executes watched fiber id co) :
    fiberProcEnd deleteFiber stale watched.state = .error .threadEnded := by
  have struct := deref_read _ _ _ executes.present
  have ended := documented.ends watched.state fiber executes.executing rfl
  simp only [fiberProcEnd, executes_current watched fiber id co executes, coDelete, struct,
    Except.mapError, bind, Except.bind, Option.getD_some, ended]

/-- Whatever `DeleteFiber` does on the fiber that executes, an action that is completed does
what it does when the call returns. -/
theorem perform_with (documented : Documented selfReturns deleteFiber) (watched next : Watched)
    (action : Action) (consistent : Consistent watched)
    (performed : performWith deleteFiber stale watched action = .ok next) :
    perform watched action = .ok next := by
  have mapped {σ : Type} (result : Except Stop σ) (value : σ)
      (same : result.mapError Halt.stopped = .ok value) : result = .ok value := by
    cases result with
    | error stop => cases same
    | ok value => exact congrArg _ (Except.ok.inj same)
  cases action with
  | new garbage => exact mapped _ next performed
  | resume id => exact mapped _ next performed
  | yield => exact mapped _ next performed
  | finish =>
    rcases consistent.executes with ⟨main, -⟩ | ⟨fiber, id, co, executes⟩
    · simp [performWith, fiberProcEnd, current, main, bind, Except.bind] at performed
    · cases selfReturns with
      | false =>
        have ended := proc_end_ends deleteFiber stale documented watched fiber id co executes
        simp [performWith, ended, bind, Except.bind] at performed
      | true =>
        have returns :=
          proc_end_returns deleteFiber stale documented watched fiber id co consistent executes
        have same := finish_returns watched fiber id co consistent executes
        simp only [performWith, returns, executes_current watched fiber id co executes, bind,
          Except.bind] at performed
        simp only [perform, same, executes_current watched fiber id co executes, bind,
          Except.bind]
        exact congrArg _ (Except.ok.inj performed)

/-- What holds at the start and is kept by the actions of `perform` holds throughout the runs
with the system's `DeleteFiber`, while at most sixteen coroutines are live. -/
theorem visits_sized (documented : Documented selfReturns deleteFiber)
    (invariant : Watched → Prop) (sized : ∀ watched, invariant watched → Sized watched)
    (keeps : ∀ watched next action, invariant watched →
      (∀ garbage, action = .new garbage → liveCount watched.state < 16) →
      perform watched action = .ok next → invariant next)
    (actions : List Action) (visited : Watched) (begins : invariant opened)
    (few : ∀ watched garbage, Takes (performWith deleteFiber stale) opened actions watched
      (.new garbage) → liveCount watched.state < 16)
    (visits : Visits (performWith deleteFiber stale) opened actions visited) :
    invariant visited := by
  refine visits_keeps (performWith deleteFiber stale) invariant
    (fun watched action => ∀ garbage, action = .new garbage → liveCount watched.state < 16) ?_
    opened visited actions begins ?_ visits
  · intro watched action next holds lawful performed
    exact keeps watched next action holds lawful (perform_with deleteFiber stale selfReturns
      documented watched next action (sized watched holds).consistent performed)
  · rintro watched action takes garbage rfl
    exact few watched garbage takes

/-! ## Reclaiming -/

/-- After the function of a coroutine has returned, the main fiber executes, the slot is
`NULL`, one coroutine less is counted, nothing is running, and all else is as before. -/
structure Reclaimed (watched next : Watched) (id co : Nat) : Prop where
  inMain : next.state.executing = none
  dead : contentAt next.state.sch.co id = none
  fewer : next.state.sch.nco + 1 = watched.state.sch.nco
  idle : next.state.sch.running = -1
  slots : ∀ other, other ≠ id →
    contentAt next.state.sch.co other = contentAt watched.state.sch.co other
  others : ∀ other, other ≠ co →
    next.state.coroutines[other]? = watched.state.coroutines[other]?

/-- The function of the coroutine that executes returns, and the coroutine is reclaimed. Slot,
structure and fiber are given back and the main fiber goes on. -/
def ReturnReclaims (watched : Watched) : Prop :=
  ∃ next id co, current watched.state = some (id, co) ∧
    performWith deleteFiber stale watched .finish = .ok next ∧ Reclaimed watched next id co

/-- If `DeleteFiber` returned there, every coroutine that returns would be reclaimed. So nothing
but the end of the thread is in the way. -/
theorem return_reclaims (documented : Documented true deleteFiber) (watched : Watched)
    (consistent : Consistent watched) (executing : watched.state.executing ≠ none) :
    ReturnReclaims deleteFiber stale watched := by
  rcases consistent.executes with ⟨main, -⟩ | ⟨fiber, id, co, executes⟩
  · exact absurd main executing
  · have content := (consistent.placed id co).mpr executes.returned
    have inside := content_inside _ _ _ content
    have returns :=
      proc_end_returns deleteFiber stale documented watched fiber id co consistent executes
    have found := executes_current watched fiber id co executes
    have counted : 0 < watched.state.sch.nco := by
      rw [consistent.counted, List.countP_pos_iff]
      refine ⟨watched.state.sch.co[id], List.getElem_mem inside, ?_⟩
      rw [contentAt, List.getElem?_eq_getElem inside, Option.bind_some] at content
      rw [content]
      rfl
    refine ⟨⟨finished watched.state id co fiber, Function.update watched.returned co none⟩, id, co,
      found, ?_, ?_⟩
    · simp only [performWith, returns, found, bind, Except.bind]
    · refine ⟨rfl, ?_, Nat.sub_add_cancel counted, rfl, ?_, ?_⟩
      · exact (content_set _ _ _ _ inside).trans (if_pos rfl)
      · exact fun other apart => (content_set _ _ _ _ inside).trans (if_neg apart)
      · exact fun other apart => present_set _ _ _ _ apart

/-- With `DeleteFiber` as documented no coroutine that returns is ever reclaimed: the thread ends.
At most sixteen coroutines are live at a time here, which keeps the table from growing. Proof: the
fiber that is deleted is the one that executes. -/
theorem return_never_reclaims (documented : Documented false deleteFiber) (actions : List Action)
    (watched : Watched)
    (few : ∀ watched garbage, Takes (performWith deleteFiber stale) opened actions watched
      (.new garbage) → liveCount watched.state < 16)
    (visits : Visits (performWith deleteFiber stale) opened actions watched)
    (executing : watched.state.executing ≠ none) :
    performWith deleteFiber stale watched .finish = .error .threadEnded ∧
      ¬ ReturnReclaims deleteFiber stale watched := by
  have sized : Sized watched := visits_sized deleteFiber stale false documented Sized
    (fun _ sized => sized) perform_sized actions watched opened_sized few visits
  rcases sized.consistent.executes with ⟨main, -⟩ | ⟨fiber, id, co, executes⟩
  · exact absurd main executing
  · have ended : performWith deleteFiber stale watched .finish = .error .threadEnded := by
      rw [performWith, proc_end_ends deleteFiber stale documented watched fiber id co executes]
      rfl
    refine ⟨ended, ?_⟩
    rintro ⟨next, _, _, -, performed, -⟩
    rw [ended] at performed
    cases performed

end Parameters

/-- A `DeleteFiber` as documented. Deleting the executing fiber ends the thread, any other is
destroyed. -/
def systemDelete (state : State) (fiber : Nat) : Option State :=
  if state.executing = some fiber then none else some (destroyed state fiber)

/-- The deletion of the system is as documented. So the assumption on `DeleteFiber` can be met. -/
theorem system_documented : Documented false systemDelete where
  destroys state fiber _ elsewhere := by
    rw [systemDelete, if_neg fun same => Bool.false_ne_true (elsewhere same)]
  ends state fiber own _ := by rw [systemDelete, if_pos own]

/-- A coroutine that was created and resumed. Its return is the end of the thread. -/
theorem first_return_ends :
    ∃ watched, Visits (performWith systemDelete id) opened [.new fun _ => none, .resume 0] watched ∧
      performWith systemDelete id watched .finish = .error .threadEnded ∧
      ¬ ReturnReclaims systemDelete id watched := by
  refine ⟨_, .later _ _ _ _ _ rfl (.later _ _ _ _ _ rfl (.here _ _)),
    return_never_reclaims systemDelete id system_documented [.new fun _ => none, .resume 0] _ ?_
      (.later _ _ _ _ _ rfl (.later _ _ _ _ _ rfl (.here _ _))) (by decide)⟩
  intro watched garbage takes
  obtain rfl := takes_first (performWith systemDelete id)
    (fun action => ∃ garbage, action = .new garbage) opened watched _ _ _ (by simp)
    ⟨garbage, rfl⟩ takes
  decide

/-- One coroutine is created and resumed, and its function returns: the thread ends. It is the
shortest run that reaches a return. -/
theorem thread_ends_at_return :
    run (performWith systemDelete id) opened [.new fun _ => none, .resume 0, .finish] =
        .error .threadEnded ∧
      ∃ watched, Visits (performWith systemDelete id) opened
          [.new fun _ => none, .resume 0, .finish] watched ∧
        current watched.state = some (0, 0) ∧ ¬ ReturnReclaims systemDelete id watched := by
  refine ⟨rfl, _, .later _ _ _ _ _ rfl (.later _ _ _ _ _ rfl (.here _ _)), rfl, ?_⟩
  rintro ⟨next, _, _, -, performed, -⟩
  cases performed

end EffiLib.Coroutines
