import EffiLib.Coroutines.Consistency

/-!
# One running coroutine

Every switch back goes to the main fiber. A coroutine that resumes another one keeps its
status and is not switched to again: when the other one yields, nothing can be done with the
first, because resuming a running coroutine reaches the `assert(0)`. So there is one running
coroutine throughout a run exactly when every resume is made by the main fiber.
-/

namespace EffiLib.Coroutines

open Runs

/-- The coroutines whose functions have not returned: their structures are still allocated. It is
counted on the structures, not on the table. -/
def liveCount (state : State) : Nat := state.coroutines.countP Option.isSome

/-- The id of a coroutine that is ready or suspended. Such a coroutine may be resumed. -/
def Idle (watched : Watched) (id : Int) : Prop :=
  ∃ (place co : Nat) (coroutine : Coroutine), id = place ∧ watched.returned co = some place ∧
    watched.state.coroutines[co]? = some (some coroutine) ∧
    (coroutine.status = .ready ∨ coroutine.status = .suspend)

/-- The coroutine has the status `COROUTINE_RUNNING`, and this fiber. It need not be the one that
executes. -/
def Running (state : State) (co : Nat) (ctx : Option Nat) : Prop :=
  state.coroutines[co]? = some (some ⟨.running, ctx⟩)

/-- The status, `running` and the fiber that executes tell the same: at most one coroutine
has the status `COROUTINE_RUNNING`; the main fiber executes when `running` is -1, and
otherwise `running` is the id of that coroutine; and every other coroutine whose function
has not returned can be resumed. -/
structure Single (watched : Watched) : Prop where
  atMostOne : ∀ co other ctx otherCtx, Running watched.state co ctx →
    Running watched.state other otherCtx → co = other
  inMain : watched.state.sch.running = -1 ↔ watched.state.executing = none
  inCoroutine : ∀ fiber, watched.state.executing = some fiber →
    ∃ id co : Nat, watched.state.sch.running = id ∧ watched.returned co = some id ∧
      Running watched.state co (some fiber)
  resumable : ∀ co id, watched.returned co = some id → current watched.state ≠ some (id, co) →
    ∃ next, coroutineResume id watched.state = .ok next

/-- Beside consistency: the table has its first capacity, `nco` counts the live coroutines,
and only the coroutine that executes is running. -/
structure Alone (watched : Watched) : Prop where
  consistent : Consistent watched
  capacity : watched.state.sch.cap = defaultCoroutine
  allocated : watched.state.sch.nco = liveCount watched.state
  alone : ∀ co ctx, Running watched.state co ctx → watched.state.executing = ctx

/-- The fiber of a running coroutine. Its `ctx` was set when it was resumed first. -/
theorem running_fiber (watched : Watched) (co : Nat) (ctx : Option Nat)
    (consistent : Consistent watched)
    (present : Running watched.state co ctx) :
    ∃ id fiber, watched.returned co = some id ∧ ctx = some fiber ∧
      watched.state.fibers[fiber]? = some (.started id co) := by
  obtain ⟨id, returned⟩ := consistent.known co _ present
  obtain ⟨coroutine, found, fits⟩ := consistent.live co id returned
  obtain rfl : (⟨.running, ctx⟩ : Coroutine) = coroutine := by
    rw [show watched.state.coroutines[co]? = _ from present] at found
    simpa using found
  rcases fits with ⟨ready, -⟩ | ⟨-, fiber, same, started⟩
  · simp at ready
  · exact ⟨id, fiber, returned, same, started⟩

/-- A running coroutine is the one that executes. So the status tells which coroutine executes. -/
theorem running_executes (watched : Watched) (fiber id co other : Nat) (ctx : Option Nat)
    (alone : Alone watched) (executes : Executes watched fiber id co)
    (present : Running watched.state other ctx) : other = co := by
  have same := alone.alone other ctx present
  obtain ⟨place, thread, -, rfl, started⟩ :=
    running_fiber watched other ctx alone.consistent present
  rw [executes.executing] at same
  obtain rfl := Option.some.inj same
  rw [executes.started] at started
  simp only [Option.some.injEq, Fiber.started.injEq] at started
  exact started.2.symm

/-- Outside of a coroutine nothing is running. So main may resume any coroutine. -/
theorem main_idle (watched : Watched) (co : Nat) (ctx : Option Nat) (alone : Alone watched)
    (main : watched.state.executing = none) : ¬ Running watched.state co ctx := by
  intro present
  have same := alone.alone co ctx present
  obtain ⟨-, fiber, -, rfl, -⟩ := running_fiber watched co ctx alone.consistent present
  simp [main] at same

/-- With only the executing coroutine running, the copies of the fact agree. `running`, the status
and the executing fiber name one coroutine then. -/
theorem alone_single (watched : Watched) (alone : Alone watched) : Single watched := by
  have consistent := alone.consistent
  refine ⟨?_, ?_, ?_, ?_⟩
  · intro co other ctx otherCtx first second
    rcases consistent.executes with ⟨main, -⟩ | ⟨fiber, id, active, executes⟩
    · exact absurd first (main_idle watched co ctx alone main)
    · rw [running_executes watched fiber id active co ctx alone executes first,
        running_executes watched fiber id active other otherCtx alone executes second]
  · rcases consistent.executes with ⟨main, idle⟩ | ⟨fiber, id, active, executes⟩
    · simp [main, idle]
    · have positive : (id : Int) ≠ -1 := by omega
      simp [executes.executing, executes.running, positive]
  · intro fiber executing
    rcases consistent.executes with ⟨main, -⟩ | ⟨thread, id, active, executes⟩
    · simp [main] at executing
    · obtain rfl : thread = fiber := by
        rw [executes.executing] at executing
        exact Option.some.inj executing
      exact ⟨id, active, executes.running, executes.returned, executes.present⟩
  · intro co id returned elsewhere
    obtain ⟨coroutine, present, fits⟩ := consistent.live co id returned
    have idle : coroutine.status = .ready ∨ coroutine.status = .suspend := by
      rcases fits with ⟨ready, -⟩ | ⟨running | suspend, -⟩
      · exact Or.inl ready
      · -- A running coroutine is the one that executes, which was excluded.
        obtain ⟨status, ctx⟩ := coroutine
        obtain rfl : status = .running := running
        rcases consistent.executes with ⟨main, -⟩ | ⟨fiber, place, active, executes⟩
        · exact absurd present (main_idle watched co ctx alone main)
        · have same := running_executes watched fiber place active co ctx alone executes present
          subst same
          rw [executes.returned] at returned
          obtain rfl := Option.some.inj returned
          simp [current, executes.executing, executes.started] at elsewhere
      · exact Or.inr suspend
    obtain ⟨fiber, fibers, enters, -⟩ :=
      resume_enters watched id co coroutine consistent returned present idle
    exact ⟨_, enters⟩

/-! ## Steps -/

/-- A new table has nothing running. There is no coroutine in it. -/
theorem opened_alone : Alone opened :=
  ⟨opened_consistent, rfl, rfl, by rintro co ctx ⟨⟩⟩

/-- Writing a live coroutine keeps the number of live ones. A live structure is replaced by a live
one. -/
theorem live_put (coroutines : List (Option Coroutine)) (co : Nat) (before after : Coroutine)
    (present : coroutines[co]? = some (some before)) :
    (coroutines.set co (some after)).countP Option.isSome = coroutines.countP Option.isSome := by
  obtain ⟨inside, same⟩ := List.getElem?_eq_some_iff.mp present
  have counted : 0 < coroutines.countP Option.isSome :=
    List.countP_pos_iff.mpr ⟨some before, List.mem_of_getElem? present, rfl⟩
  rw [List.countP_set inside, same]
  simp only [Option.isSome_some, if_true]
  omega

/-- Freeing a live coroutine takes one off the number of live ones. The structure was counted
before. -/
theorem live_free (coroutines : List (Option Coroutine)) (co : Nat) (before : Coroutine)
    (present : coroutines[co]? = some (some before)) :
    (coroutines.set co none).countP Option.isSome = coroutines.countP Option.isSome - 1 := by
  obtain ⟨inside, same⟩ := List.getElem?_eq_some_iff.mp present
  rw [List.countP_set inside, same]
  rfl

/-- Beside consistency: the table has its first capacity, and `nco` counts the live coroutines.
Then there is a free slot as long as fewer than sixteen coroutines are live. -/
structure Sized (watched : Watched) : Prop where
  consistent : Consistent watched
  capacity : watched.state.sch.cap = defaultCoroutine
  allocated : watched.state.sch.nco = liveCount watched.state

/-- A new table has no live coroutine. Its table has sixteen slots. -/
theorem opened_sized : Sized opened := ⟨opened_consistent, rfl, rfl⟩

/-- With fewer than sixteen live coroutines there is a free slot. The table has as many used slots
as there are live coroutines. -/
theorem sized_free (watched : Watched) (sized : Sized watched)
    (few : liveCount watched.state < 16) :
    watched.state.sch.nco < watched.state.sch.cap := by
  rw [sized.allocated, sized.capacity]
  exact few

/-- While at most sixteen coroutines are live, the table keeps its size and its count. A return
makes both counts one less, a creation one more. -/
theorem perform_sized (watched next : Watched) (action : Action) (sized : Sized watched)
    (few : ∀ garbage, action = .new garbage → liveCount watched.state < 16)
    (performed : perform watched action = .ok next) : Sized next := by
  have consistent := sized.consistent
  have free (garbage : Nat → Option Nat) (creates : action = .new garbage) :=
    sized_free watched sized (few garbage creates)
  have kept := perform_consistent watched next action consistent free performed
  cases action with
  | new garbage =>
    obtain ⟨id, -, -, rfl⟩ :=
      new_performed watched next garbage consistent (free garbage rfl) performed
    refine ⟨kept, sized.capacity, ?_⟩
    change watched.state.sch.nco + 1 =
      (watched.state.coroutines ++ [some (Coroutine.mk .ready none)]).countP Option.isSome
    rw [List.countP_append, sized.allocated]
    rfl
  | resume id =>
    rcases resume_performed watched next id consistent performed with
      rfl | ⟨place, co, fiber, coroutine, fibers, -, returned, present, -, started, stays, -, rfl⟩
    · exact sized
    · refine ⟨kept, sized.capacity, ?_⟩
      change watched.state.sch.nco = (watched.state.coroutines.set co _).countP Option.isSome
      rw [live_put _ _ _ _ present]
      exact sized.allocated
  | yield =>
    obtain ⟨fiber, id, co, executes, rfl⟩ := yield_performed watched next consistent performed
    refine ⟨kept, sized.capacity, ?_⟩
    change watched.state.sch.nco = (watched.state.coroutines.set co _).countP Option.isSome
    rw [live_put _ _ _ _ executes.present]
    exact sized.allocated
  | finish =>
    obtain ⟨fiber, id, co, executes, rfl⟩ := finish_performed watched next consistent performed
    refine ⟨kept, sized.capacity, ?_⟩
    change watched.state.sch.nco - 1 = (watched.state.coroutines.set co none).countP Option.isSome
    rw [live_free _ _ _ executes.present, sized.allocated]
    rfl

/-- While at most sixteen coroutines are live and resumes come from the main fiber, only the
executing coroutine is running. -/
theorem perform_alone (watched next : Watched) (action : Action) (alone : Alone watched)
    (few : ∀ garbage, action = .new garbage → liveCount watched.state < 16)
    (fromMain : ∀ id, action = .resume id → watched.state.executing = none)
    (performed : perform watched action = .ok next) : Alone next := by
  have consistent := alone.consistent
  have sized : Sized watched := ⟨consistent, alone.capacity, alone.allocated⟩
  obtain ⟨kept, capacity, allocated⟩ := perform_sized watched next action sized few performed
  refine ⟨kept, capacity, allocated, ?_⟩
  intro other ctx running
  cases action with
  | new garbage =>
    obtain ⟨id, -, -, rfl⟩ := new_performed watched next garbage consistent
      (sized_free watched sized (few garbage rfl)) performed
    change (watched.state.coroutines ++ [some (Coroutine.mk .ready none)])[other]? = _ at running
    by_cases below : other < watched.state.coroutines.length
    · rw [List.getElem?_append_left below] at running
      exact alone.alone other ctx running
    · rw [List.getElem?_append_right (Nat.le_of_not_lt below)] at running
      have last := List.mem_of_getElem? running
      simp at last
  | resume id =>
    rcases resume_performed watched next id consistent performed with
      rfl | ⟨place, co, fiber, coroutine, fibers, -, returned, present, -, started, stays, -, rfl⟩
    · exact alone.alone other ctx running
    · rcases present_cases _ _ _ _ _ _ present running with ⟨-, written⟩ | ⟨-, before⟩
      · simp only [Option.some.injEq, Coroutine.mk.injEq, true_and] at written
        exact written.symm
      · exact absurd before (main_idle watched other ctx alone (fromMain id rfl))
  | yield =>
    obtain ⟨fiber, id, co, executes, rfl⟩ := yield_performed watched next consistent performed
    rcases present_cases _ _ _ _ _ _ executes.present running with ⟨-, written⟩ | ⟨same, before⟩
    · simp at written
    · exact absurd (running_executes watched fiber id co other ctx alone executes before) same
  | finish =>
    obtain ⟨fiber, id, co, executes, rfl⟩ := finish_performed watched next consistent performed
    rcases present_cases _ _ _ _ _ _ executes.present running with ⟨-, written⟩ | ⟨same, before⟩
    · simp at written
    · exact absurd (running_executes watched fiber id co other ctx alone executes before) same

/-- A resume made by a coroutine leaves two coroutines running. The outer one keeps its status. -/
theorem nested_resume (watched next : Watched) (id : Int) (alone : Alone watched)
    (idle : Idle watched id) (nested : watched.state.executing ≠ none)
    (performed : perform watched (.resume id) = .ok next) : ¬ Single next := by
  intro single
  obtain ⟨place, co, coroutine, rfl, returned, present, ready⟩ := idle
  obtain ⟨fiber, fibers, enters, -⟩ :=
    resume_enters watched place co coroutine alone.consistent returned present ready
  simp only [perform, enters, bind, Except.bind] at performed
  obtain rfl := (Except.ok.inj performed).symm
  rcases alone.consistent.executes with ⟨main, -⟩ | ⟨thread, other, active, executes⟩
  · exact nested main
  · have apart : active ≠ co := by
      rintro rfl
      have same := executes.present.symm.trans present
      simp only [Option.some.injEq] at same
      rw [← same] at ready
      simp at ready
    have still : Running (entered watched.state place co fiber fibers) active (some thread) :=
      (present_set _ _ _ _ apart).trans executes.present
    have entered : Running (entered watched.state place co fiber fibers) co (some fiber) :=
      present_self _ _ _ _ present
    exact apart (single.atMostOne active co _ _ still entered)

/-- With at most sixteen coroutines live, and only ready or suspended ones resumed, one coroutine
is running throughout a run exactly when every resume is made by the main fiber. Proof: a resume
by the main fiber leaves one coroutine running, one by a coroutine leaves two, and no other action
adds one. -/
theorem single_running_exactly (actions : List Action) (final : Watched)
    (completed : run perform opened actions = .ok final)
    (few : ∀ watched garbage, Takes perform opened actions watched (.new garbage) →
      liveCount watched.state < 16)
    (idle : ∀ watched id, Takes perform opened actions watched (.resume id) → Idle watched id) :
    (∀ watched, Visits perform opened actions watched → Single watched) ↔
      ∀ watched id, Takes perform opened actions watched (.resume id) →
        watched.state.executing = none := by
  rw [run_exactly perform Alone Single
    (fun watched action => (∀ garbage, action = .new garbage → liveCount watched.state < 16) ∧
      ∀ id, action = .resume id → Idle watched id)
    (fun watched action => ∀ id, action = .resume id → watched.state.executing = none)
    alone_single ?_ ?_ opened final actions opened_alone completed ?_]
  · constructor
    · exact fun all watched id takes => all watched _ takes id rfl
    · rintro all watched action takes id rfl
      exact all watched id takes
  · exact fun watched action next alone lawful fromMain performed =>
      perform_alone watched next action alone lawful.1 fromMain performed
  · intro watched action next alone lawful inside performed
    simp only [not_forall] at inside
    obtain ⟨id, rfl, nested⟩ := inside
    exact nested_resume watched next id alone (lawful.2 id rfl) nested performed
  · intro watched action takes
    constructor
    · rintro garbage rfl
      exact few watched garbage takes
    · rintro id rfl
      exact idle watched id takes

/-- Two coroutines are created; the main fiber resumes one, which yields, and then the other. The
second one is created before the first is resumed. -/
def alternately : List Action :=
  [.new fun _ => none, .new fun _ => none, .resume 0, .yield, .resume 1]

/-- One coroutine at a time is running then. The main fiber makes both resumes. -/
theorem two_resumes_single :
    ∃ final, run perform opened alternately = .ok final ∧
      ∀ watched, Visits perform opened alternately watched → Single watched := by
  have lawful : ∀ watched action, Takes perform opened alternately watched action →
      (∀ garbage, action = .new garbage → liveCount watched.state < 16) ∧
        ∀ id, action = .resume id → Idle watched id ∧ watched.state.executing = none := by
    refine (takes_cons_iff perform _ _ _ _ _ rfl).mpr ⟨⟨fun _ _ => by decide, by simp⟩, ?_⟩
    refine (takes_cons_iff perform _ _ _ _ _ rfl).mpr ⟨⟨fun _ _ => by decide, by simp⟩, ?_⟩
    refine (takes_cons_iff perform _ _ _ _ _ rfl).mpr ⟨⟨by simp, ?_⟩, ?_⟩
    · rintro id ⟨rfl⟩
      exact ⟨⟨0, 0, ⟨.ready, none⟩, rfl, rfl, rfl, Or.inl rfl⟩, rfl⟩
    refine (takes_cons_iff perform _ _ _ _ _ rfl).mpr ⟨⟨by simp, by simp⟩, ?_⟩
    refine (takes_cons_iff perform _ _ _ _ _ rfl).mpr ⟨⟨by simp, ?_⟩, ?_⟩
    · rintro id ⟨rfl⟩
      exact ⟨⟨1, 1, ⟨.ready, none⟩, rfl, rfl, rfl, Or.inl rfl⟩, rfl⟩
    · rintro _ _ ⟨⟩
  exact ⟨_, rfl, (single_running_exactly _ _ rfl
    (fun watched garbage takes => (lawful watched _ takes).1 garbage rfl)
    (fun watched id takes => ((lawful watched _ takes).2 id rfl).1)).mpr
    (fun watched id takes => ((lawful watched _ takes).2 id rfl).2)⟩

/-- Coroutine 0 resumes coroutine 1, which yields: the main fiber executes, and resuming
coroutine 0 reaches the `assert(0)`. -/
theorem resumer_stranded :
    ∃ final, run perform opened
        [.new fun _ => none, .new fun _ => none, .resume 0, .resume 1, .yield] = .ok final ∧
      final.state.executing = none ∧ final.returned 0 = some 0 ∧
      coroutineResume 0 final.state = .error .assertion ∧ ¬ Single final := by
  obtain ⟨final, ran, main, returned, stranded, apart⟩ : ∃ final, run perform opened
      [.new fun _ => none, .new fun _ => none, .resume 0, .resume 1, .yield] = .ok final ∧
      final.state.executing = none ∧ final.returned 0 = some 0 ∧
      coroutineResume 0 final.state = .error .assertion ∧ current final.state ≠ some (0, 0) :=
    ⟨_, rfl, rfl, rfl, rfl, by decide⟩
  refine ⟨final, ran, main, returned, stranded, fun single => ?_⟩
  obtain ⟨next, resumed⟩ := single.resumable 0 0 returned apart
  exact absurd (stranded.symm.trans resumed) (by simp)

end EffiLib.Coroutines
