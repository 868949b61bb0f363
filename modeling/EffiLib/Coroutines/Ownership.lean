import EffiLib.Coroutines.Deletion

/-!
# Owners of fibers

Every fiber that is not deleted belongs to one live coroutine, whose `ctx` it is, and exactly a
coroutine that was never resumed has no fiber. Both hold after any sequence of actions.
-/

namespace EffiLib.Coroutines

/-- Every fiber that is not deleted is in the function of a live coroutine that has it. The other
direction is part of consistency. -/
def Owned (watched : Watched) : Prop :=
  ∀ fiber begun, watched.state.fibers[fiber]? = some begun → begun = .deleted ∨
    ∃ id co status, begun = .started id co ∧ watched.returned co = some id ∧
      watched.state.coroutines[co]? = some (some ⟨status, some fiber⟩)

/-- Beside the size of the table: the fibers have owners. It is the invariant under which a
schedule can be closed. -/
structure Settled (watched : Watched) : Prop where
  sized : Sized watched
  owned : Owned watched

/-- A new schedule has no fibers. So no fiber is without an owner. -/
theorem opened_settled : Settled opened := ⟨opened_sized, by rintro fiber begun ⟨⟩⟩

/-- Entering a coroutine gives its fiber to it and leaves the other fibers to their owners. A
coroutine that was never resumed gets a new fiber, and another one keeps its own. -/
theorem entered_owned (watched : Watched) (id co fiber : Nat) (coroutine : Coroutine)
    (fibers : List Fiber) (owned : Owned watched) (returned : watched.returned co = some id)
    (present : watched.state.coroutines[co]? = some (some coroutine))
    (host : EnteredOn watched.state id co coroutine fiber fibers) :
    Owned ⟨entered watched.state id co fiber fibers, watched.returned⟩ := by
  have written := present_self watched.state.coroutines co _ (some ⟨.running, some fiber⟩) present
  have old (other : Nat) (begun : Fiber) (found : watched.state.fibers[other]? = some begun)
      (same : ∀ status, watched.state.coroutines[co]? = some (some ⟨status, some other⟩) →
        other = fiber) :
      begun = .deleted ∨ ∃ place owner status, begun = .started place owner ∧
        watched.returned owner = some place ∧
        (watched.state.coroutines.set co (some ⟨.running, some fiber⟩))[owner]? =
          some (some ⟨status, some other⟩) := by
    rcases owned other begun found with deleted | ⟨place, owner, status, begins, known, has⟩
    · exact Or.inl deleted
    · by_cases here : owner = co
      · subst here
        obtain rfl := same status has
        exact Or.inr ⟨place, owner, .running, begins, known, written⟩
      · exact Or.inr ⟨place, owner, status, begins, known, (present_set _ _ _ _ here).trans has⟩
  intro other begun found
  rcases host with ⟨ctx, rfl⟩ | ⟨unset, rfl, rfl⟩
  · refine old other begun found ?_
    intro status has
    rw [present] at has
    obtain rfl := Option.some.inj (Option.some.inj has)
    exact (Option.some.inj ctx)
  · change (watched.state.fibers ++ [Fiber.started id co])[other]? = some begun at found
    by_cases below : other < watched.state.fibers.length
    · rw [List.getElem?_append_left below] at found
      refine old other begun found ?_
      intro status has
      rw [present] at has
      obtain rfl := Option.some.inj (Option.some.inj has)
      cases unset
    · have last : other = watched.state.fibers.length := by
        have within := (List.getElem?_eq_some_iff.mp found).choose
        rw [List.length_append, List.length_singleton] at within
        omega
      subst last
      rw [List.getElem?_concat_length] at found
      obtain rfl := Option.some.inj found
      exact Or.inr ⟨id, co, .running, rfl, returned, written⟩

/-- Without new fibers, owners that keep their fibers and ids are owners still. The three kinds of
steps that start no fiber use it. -/
theorem owners_stay (watched next : Watched) (owned : Owned watched)
    (old : ∀ (fiber : Nat) (begun : Fiber), next.state.fibers[fiber]? = some begun →
      begun = .deleted ∨ watched.state.fibers[fiber]? = some begun)
    (stays : ∀ (fiber id co : Nat) (status : Status),
      next.state.fibers[fiber]? = some (.started id co) → watched.returned co = some id →
      watched.state.coroutines[co]? = some (some ⟨status, some fiber⟩) →
      next.returned co = some id ∧
        ∃ status, next.state.coroutines[co]? = some (some ⟨status, some fiber⟩)) :
    Owned next := by
  intro fiber begun found
  rcases old fiber begun found with deleted | before
  · exact Or.inl deleted
  · rcases owned fiber begun before with deleted | ⟨id, co, status, rfl, known, has⟩
    · exact Or.inl deleted
    · obtain ⟨returned, status, present⟩ := stays fiber id co status found known has
      exact Or.inr ⟨id, co, status, rfl, returned, present⟩

/-- A yield changes the status of the coroutine that executes. The owner of its fiber is as
before. -/
theorem suspended_owned (watched : Watched) (fiber id co : Nat) (owned : Owned watched)
    (executes : Executes watched fiber id co) :
    Owned ⟨suspended watched.state co ⟨.running, some fiber⟩, watched.returned⟩ := by
  refine owners_stay watched _ owned (fun _ _ found => Or.inr found) ?_
  intro other place owner status _ known has
  by_cases here : owner = co
  · subst here
    rw [executes.present] at has
    obtain ⟨rfl, same⟩ := Coroutine.mk.inj (Option.some.inj (Option.some.inj has))
    obtain rfl := Option.some.inj same
    exact ⟨known, .suspend, present_self _ _ _ _ executes.present⟩
  · exact ⟨known, status, (present_set _ _ _ _ here).trans has⟩

/-- A return deletes the fiber that executes, and its owner with it. The other fibers keep their
owners. -/
theorem finished_owned (watched : Watched) (fiber id co : Nat) (owned : Owned watched)
    (executes : Executes watched fiber id co) :
    Owned ⟨finished watched.state id co fiber, Function.update watched.returned co none⟩ := by
  have within := (List.getElem?_eq_some_iff.mp executes.started).choose
  have own : (watched.state.fibers.set fiber .deleted)[fiber]? = some .deleted :=
    List.getElem?_set_self within
  have elsewhere (other : Nat) (apart : other ≠ fiber) :
      (watched.state.fibers.set fiber .deleted)[other]? = watched.state.fibers[other]? :=
    List.getElem?_set_ne (Ne.symm apart)
  refine owners_stay watched _ owned ?_ ?_
  · intro other begun found
    change (watched.state.fibers.set fiber .deleted)[other]? = some begun at found
    by_cases same : other = fiber
    · subst same
      rw [own] at found
      exact Or.inl (Option.some.inj found).symm
    · exact Or.inr ((elsewhere other same).symm.trans found)
  · intro other place owner status found known has
    have here : owner ≠ co := by
      rintro rfl
      rw [executes.present] at has
      obtain rfl := Option.some.inj (Coroutine.mk.inj (Option.some.inj (Option.some.inj has))).2
      rw [show (finished watched.state id owner fiber).fibers[fiber]? = _ from own] at found
      cases found
    exact ⟨(Function.update_of_ne here _ _).trans known, status,
      (present_set _ _ _ _ here).trans has⟩

/-- Every action leaves each live fiber an owner. Proof: one case for each action. -/
theorem perform_owned (watched next : Watched) (action : Action) (settled : Settled watched)
    (few : ∀ garbage, action = .new garbage → liveCount watched.state < 16)
    (performed : perform watched action = .ok next) : Owned next := by
  have consistent := settled.sized.consistent
  have owned := settled.owned
  cases action with
  | new garbage =>
    obtain ⟨place, -, -, rfl⟩ := new_performed watched next garbage consistent
      (sized_free watched settled.sized (few garbage rfl)) performed
    refine owners_stay watched _ owned (fun _ _ found => Or.inr found) ?_
    intro fiber id co status _ known has
    have below := (List.getElem?_eq_some_iff.mp has).choose
    exact ⟨(Function.update_of_ne (Nat.ne_of_lt below) _ _).trans known, status,
      (List.getElem?_append_left below).trans has⟩
  | resume id =>
    rcases resume_performed watched next id consistent performed with
      rfl | ⟨place, co, fiber, coroutine, fibers, -, returned, present, -, -, -, host, rfl⟩
    · exact owned
    · exact entered_owned watched place co fiber coroutine fibers owned returned present host
  | yield =>
    obtain ⟨fiber, id, co, executes, rfl⟩ := yield_performed watched next consistent performed
    exact suspended_owned watched fiber id co owned executes
  | finish =>
    obtain ⟨fiber, id, co, executes, rfl⟩ := finish_performed watched next consistent performed
    exact finished_owned watched fiber id co owned executes

/-- Every action keeps the schedule settled. So every state of a run is settled. -/
theorem perform_settled (watched next : Watched) (action : Action) (settled : Settled watched)
    (few : ∀ garbage, action = .new garbage → liveCount watched.state < 16)
    (performed : perform watched action = .ok next) : Settled next :=
  ⟨perform_sized watched next action settled.sized few performed,
    perform_owned watched next action settled few performed⟩

/-! ## Fibers of coroutines -/

/-- The `ctx` of a coroutine, if it was set. `fiberProc` has not been started for a coroutine
without one. -/
def ctxOf (state : State) (co : Nat) : Option Nat :=
  match state.coroutines[co]? with
  | some (some coroutine) => coroutine.ctx
  | _ => none

/-- The coroutine that calls executes on its fiber. It is the one that the `running` field
names. -/
theorem current_executes (watched : Watched) (consistent : Consistent watched) (id co : Nat)
    (calls : current watched.state = some (id, co)) : ∃ fiber, Executes watched fiber id co := by
  rcases consistent.executes with ⟨main, -⟩ | ⟨fiber, place, active, executes⟩
  · simp [current, main] at calls
  · rw [executes_current watched fiber place active executes] at calls
    obtain ⟨rfl, rfl⟩ := Prod.mk.inj (Option.some.inj calls)
    exact ⟨fiber, executes⟩

/-- Exactly a coroutine that was never resumed has no `ctx`. Its status is `COROUTINE_READY` as
long. -/
theorem ctx_unset (watched : Watched) (consistent : Consistent watched) (id co : Nat)
    (coroutine : Coroutine) (returned : watched.returned co = some id)
    (present : watched.state.coroutines[co]? = some (some coroutine)) :
    ctxOf watched.state co = none ↔ coroutine.status = .ready := by
  have has : ctxOf watched.state co = coroutine.ctx := by rw [ctxOf, present]
  obtain ⟨found, same, fits⟩ := consistent.live co id returned
  rw [present] at same
  obtain rfl := Option.some.inj (Option.some.inj same)
  rw [has]
  rcases fits with ⟨ready, unset⟩ | ⟨started, fiber, ctx, -⟩
  · simp [ready, unset]
  · rcases started with running | suspend
    · simp [ctx, running]
    · simp [ctx, suspend]

/-- The fiber in a `ctx` is in the function of that coroutine. The first resume started it
there. -/
theorem ctx_started (watched : Watched) (consistent : Consistent watched) (id co fiber : Nat)
    (returned : watched.returned co = some id) (ctx : ctxOf watched.state co = some fiber) :
    watched.state.fibers[fiber]? = some (.started id co) := by
  obtain ⟨coroutine, present, fits⟩ := consistent.live co id returned
  have has : ctxOf watched.state co = coroutine.ctx := by rw [ctxOf, present]
  rw [has] at ctx
  rcases fits with ⟨-, unset⟩ | ⟨-, thread, same, begun⟩
  · rw [unset] at ctx
    cases ctx
  · rw [same] at ctx
    obtain rfl := Option.some.inj ctx
    exact begun

end EffiLib.Coroutines
