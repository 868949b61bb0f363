import EffiLib.Coroutines.Ownership

/-!
# Closing a schedule

`coroutine_close` deletes the fiber of every coroutine in the table. A coroutine that was never
resumed has no fiber: its `ctx` is what `malloc` left there. And where a coroutine closes the
schedule, the loop ends with the thread when it comes to that coroutine. So exactly the live
fibers are deleted exactly when the coroutines that the loop reaches are those that were
resumed.
-/

namespace EffiLib.Coroutines

open Runs

/-! ## The loop -/

/-- A call of `DeleteFiber`: the state before it, the `ctx` it is given, if that was ever set,
and the handle. -/
structure Call where
  before : State
  ctx : Option Nat
  handle : Nat

section Parameters

variable (deleteFiber : State → Nat → Option State) (stale : Nat → Nat)

/-- The calls of `DeleteFiber` in the loop of `coroutine_close`, for the slots from some slot on.
The list ends where the thread does, or where a structure is not there. -/
def closeFrom : List Slot → State → List Call
  | [], _ => []
  | slot :: slots, state =>
    match slot.content with
    | none => closeFrom slots state
    | some co =>
      match deref state co with
      | .error _ => []
      | .ok coroutine =>
        ⟨state, coroutine.ctx, coroutine.ctx.getD (stale co)⟩ ::
          match coDelete deleteFiber stale state co with
          | .error _ => []
          | .ok state => closeFrom slots state

/-- The calls of `DeleteFiber` in `coroutine_close`. The table has the size that `cap` says. -/
def coroutineClose (state : State) : List Call :=
  closeFrom deleteFiber stale (state.sch.co.take state.sch.cap) state

/-- A coroutine in slots, with everything the loop needs to find there. It is the invariant of the
loop. -/
structure Prepared (selfReturns : Bool) (active : Option Nat) (state : State) (cos : List Nat) :
    Prop where
  distinct : cos.Nodup
  present : ∀ co ∈ cos, ∃ coroutine, state.coroutines[co]? = some (some coroutine)
  live : ∀ co ∈ cos, ∀ fiber, ctxOf state co = some fiber → LiveFiber state fiber
  apart : ∀ co ∈ cos, ∀ other ∈ cos, ∀ fiber, ctxOf state co = some fiber →
    ctxOf state other = some fiber → co = other
  own : ∀ co ∈ cos, ∀ fiber, ctxOf state co = some fiber →
    ((state.executing = some fiber ∧ selfReturns = false) ↔ active = some co)

/-- The coroutines in slots. They are in the order of the slots. -/
def occupants (slots : List Slot) : List Nat := slots.filterMap Slot.content

/-- An empty slot holds no coroutine. The loop of the source passes it. -/
theorem occupants_empty (slot : Slot) (slots : List Slot) (content : slot.content = none) :
    occupants (slot :: slots) = occupants slots := List.filterMap_cons_none content

/-- A slot with a coroutine holds one more. It comes before those of the slots behind. -/
theorem occupants_taken (slot : Slot) (slots : List Slot) (co : Nat)
    (content : slot.content = some co) : occupants (slot :: slots) = co :: occupants slots :=
  List.filterMap_cons_some content

/-- A coroutine in slots is in one of them. Only the empty slots are left out. -/
theorem mem_occupants (slots : List Slot) (co : Nat) :
    co ∈ occupants slots ↔ ∃ id, contentAt slots id = some co := by
  rw [occupants, List.mem_filterMap]
  constructor
  · rintro ⟨slot, member, content⟩
    obtain ⟨id, read⟩ := List.mem_iff_getElem?.mp member
    exact ⟨id, Option.bind_eq_some_iff.mpr ⟨slot, read, content⟩⟩
  · rintro ⟨id, found⟩
    obtain ⟨slot, read, content⟩ := Option.bind_eq_some_iff.mp found
    exact ⟨slot, List.mem_of_getElem? read, content⟩

/-- With each coroutine in one slot only, no coroutine is listed twice. Two places
of the list come from two slots. -/
theorem occupants_distinct (slots : List Slot)
    (once : ∀ id other co, contentAt slots id = some co → contentAt slots other = some co →
      id = other) : (occupants slots).Nodup := by
  rw [occupants, List.Nodup, List.pairwise_filterMap, List.pairwise_iff_getElem]
  rintro id other inside otherInside before co here _ there rfl
  have same := once id other co (by simp [contentAt, inside, here])
    (by simp [contentAt, otherInside, there])
  omega

/-- The coroutines in slots up to an active one, on whose fiber the thread ends. The loop comes to
these and to no others. -/
def upTo (active : Option Nat) : List Slot → List Nat
  | [] => []
  | slot :: slots =>
    match slot.content with
    | none => upTo active slots
    | some co => if active = some co then [co] else co :: upTo active slots

/-- A coroutine whose fiber has been destroyed and whose structure is free. This is what one pass
of the loop leaves. -/
def gone (state : State) (co fiber : Nat) : State :=
  { destroyed state fiber with coroutines := state.coroutines.set co none }

/-- The other coroutines keep their fibers. Only one structure is freed. -/
theorem ctx_gone (state : State) (co fiber other : Nat) (apart : other ≠ co) :
    ctxOf (gone state co fiber) other = ctxOf state other := by
  rw [ctxOf, gone, present_set _ _ _ _ apart, ctxOf]

/-- What the loop needs to find for the other coroutines stays. No two coroutines have one
fiber. -/
theorem prepared_gone (selfReturns : Bool) (active : Option Nat) (state : State) (co fiber : Nat)
    (cos : List Nat) (prepared : Prepared selfReturns active state (co :: cos))
    (ctx : ctxOf state co = some fiber) :
    Prepared selfReturns active (gone state co fiber) cos := by
  have distinct := List.nodup_cons.mp prepared.distinct
  have other (owner : Nat) (member : owner ∈ cos) : owner ≠ co :=
    fun same => distinct.1 (same ▸ member)
  have kept (owner : Nat) (member : owner ∈ cos) :=
    ctx_gone state co fiber owner (other owner member)
  have among (owner : Nat) (member : owner ∈ cos) : owner ∈ co :: cos :=
    List.mem_cons_of_mem co member
  refine ⟨distinct.2, ?_, ?_, ?_, ?_⟩
  · intro owner member
    obtain ⟨coroutine, present⟩ := prepared.present owner (among owner member)
    exact ⟨coroutine, (present_set _ _ _ _ (other owner member)).trans present⟩
  · intro owner member thread has
    rw [kept owner member] at has
    obtain ⟨begun, found, alive⟩ := prepared.live owner (among owner member) thread has
    have elsewhere : thread ≠ fiber := by
      rintro rfl
      exact other owner member (prepared.apart owner (among owner member) co List.mem_cons_self
        thread has ctx)
    exact ⟨begun, (List.getElem?_set_ne (Ne.symm elsewhere)).trans found, alive⟩
  · intro owner member second secondMember thread has secondHas
    rw [kept owner member] at has
    rw [kept second secondMember] at secondHas
    exact prepared.apart owner (among owner member) second (among second secondMember) thread has
      secondHas
  · intro owner member thread has
    rw [kept owner member] at has
    exact prepared.own owner (among owner member) thread has

/-- One slot with a coroutine: its `ctx` is used as it is, and the loop goes on behind it
unless the thread has ended. -/
theorem close_slot (selfReturns : Bool) (documented : Documented selfReturns deleteFiber)
    (active : Option Nat) (slot : Slot) (slots : List Slot) (state : State) (co : Nat)
    (content : slot.content = some co)
    (prepared : Prepared selfReturns active state (co :: occupants slots)) :
    (ctxOf state co = none →
      ∃ rest, closeFrom deleteFiber stale (slot :: slots) state = ⟨state, none, stale co⟩ :: rest) ∧
    ∀ fiber, ctxOf state co = some fiber →
      closeFrom deleteFiber stale (slot :: slots) state = ⟨state, some fiber, fiber⟩ ::
        if active = some co then [] else closeFrom deleteFiber stale slots
          (gone state co fiber) := by
  obtain ⟨coroutine, present⟩ := prepared.present co List.mem_cons_self
  have struct := deref_read state co coroutine present
  have has : ctxOf state co = coroutine.ctx := by rw [ctxOf, present]
  constructor
  · intro unset
    rw [has] at unset
    simp only [closeFrom, content, struct, unset, Option.getD_none]
    exact ⟨_, rfl⟩
  · intro fiber ctx
    have alive := prepared.live co List.mem_cons_self fiber ctx
    have own := prepared.own co List.mem_cons_self fiber ctx
    rw [has] at ctx
    by_cases here : active = some co
    · obtain ⟨executing, ends⟩ := own.mpr here
      have ended := documented.ends state fiber executing ends
      have deleted : coDelete deleteFiber stale state co = .error .threadEnded := by
        simp only [coDelete, struct, Except.mapError, bind, Except.bind, ctx, Option.getD_some,
          ended]
      simp only [closeFrom, content, struct, ctx, Option.getD_some, deleted, if_pos here]
    · have returns : state.executing = some fiber → selfReturns = true := by
        intro executing
        by_contra ends
        exact here (own.mp ⟨executing, Bool.eq_false_iff.mpr ends⟩)
      have ended := documented.destroys state fiber alive returns
      have deleted : coDelete deleteFiber stale state co = .ok (gone state co fiber) := by
        simp only [coDelete, struct, Except.mapError, bind, Except.bind, ctx, Option.getD_some,
          ended]
        rfl
      simp only [closeFrom, content, struct, ctx, Option.getD_some, deleted, if_neg here]

/-- An empty slot is passed. The loop deletes nothing there. -/
theorem up_to_empty (active : Option Nat) (slot : Slot) (slots : List Slot)
    (content : slot.content = none) : upTo active (slot :: slots) = upTo active slots := by
  simp only [upTo, content]

/-- Behind the active coroutine there is nothing more. The thread ends when its own fiber is
deleted. -/
theorem up_to_active (active : Option Nat) (slot : Slot) (slots : List Slot) (co : Nat)
    (content : slot.content = some co) (here : active = some co) :
    upTo active (slot :: slots) = [co] := by
  simp only [upTo, content, if_pos here]

/-- Behind another coroutine it goes on. Its fiber is deleted before those of the slots behind. -/
theorem up_to_other (active : Option Nat) (slot : Slot) (slots : List Slot) (co : Nat)
    (content : slot.content = some co) (elsewhere : active ≠ some co) :
    upTo active (slot :: slots) = co :: upTo active slots := by
  simp only [upTo, content, if_neg elsewhere]

/-- A slot holds a coroutine, and none before it holds the active one. The loop comes to such a
slot before the thread ends. -/
def Early (active : Option Nat) (slots : List Slot) (id co : Nat) : Prop :=
  contentAt slots id = some co ∧ ∀ own executing, active = some executing →
    contentAt slots own = some executing → id ≤ own

/-- The content of the first slot. -/
theorem content_first (slot : Slot) (slots : List Slot) :
    contentAt (slot :: slots) 0 = slot.content := rfl

/-- The content of the slots behind the first one. They are numbered from one on. -/
theorem content_later (slot : Slot) (slots : List Slot) (id : Nat) :
    contentAt (slot :: slots) (id + 1) = contentAt slots id := by
  rw [contentAt, List.getElem?_cons_succ, contentAt]

/-- The first slot is early. No slot is in front of it. -/
theorem early_first (active : Option Nat) (slot : Slot) (slots : List Slot) (co : Nat) :
    Early active (slot :: slots) 0 co ↔ slot.content = some co := by
  rw [Early, content_first]
  exact and_iff_left fun own _ _ _ => Nat.zero_le own

/-- Behind a first slot without the active coroutine the same slots are early. This is the step of
the induction over the slots. -/
theorem early_later (active : Option Nat) (slot : Slot) (slots : List Slot) (id co : Nat)
    (elsewhere : ∀ executing, active = some executing → slot.content ≠ some executing) :
    Early active (slot :: slots) (id + 1) co ↔ Early active slots id co := by
  rw [Early, Early, content_later]
  apply and_congr_right
  intro _
  constructor
  · intro early own executing same found
    exact Nat.le_of_succ_le_succ
      (early (own + 1) executing same ((content_later slot slots own).trans found))
  · intro early own executing same found
    cases own with
    | zero => exact absurd found (elsewhere executing same)
    | succ own =>
      rw [content_later] at found
      exact Nat.succ_le_succ (early own executing same found)

/-- The coroutines up to the active one are those in early slots. Proof: by induction on the
slots, with the first one active, occupied or empty. -/
theorem mem_up_to (active : Option Nat) (slots : List Slot) (co : Nat) :
    co ∈ upTo active slots ↔ ∃ id, Early active slots id co := by
  induction slots with
  | nil => simp [upTo, Early, contentAt]
  | cons slot slots inductionHypothesis =>
    cases content : slot.content with
    | none =>
      rw [up_to_empty active slot slots content, inductionHypothesis]
      have behind (id : Nat) := early_later active slot slots id co (by simp [content])
      constructor
      · rintro ⟨id, early⟩
        exact ⟨id + 1, (behind id).mpr early⟩
      · rintro ⟨id, early⟩
        cases id with
        | zero =>
          rw [early_first, content] at early
          cases early
        | succ id => exact ⟨id, (behind id).mp early⟩
    | some occupant =>
      by_cases here : active = some occupant
      · rw [up_to_active active slot slots occupant content here, List.mem_singleton]
        constructor
        · rintro rfl
          exact ⟨0, (early_first active slot slots co).mpr content⟩
        · rintro ⟨id, found, early⟩
          obtain rfl := Nat.le_zero.mp (early 0 occupant here content)
          rw [content_first, content] at found
          exact (Option.some.inj found).symm
      · rw [up_to_other active slot slots occupant content here, List.mem_cons,
          inductionHypothesis]
        have behind (id : Nat) := early_later active slot slots id co (by
          rintro executing rfl same
          rw [content] at same
          exact here same.symm)
        constructor
        · rintro (rfl | ⟨id, early⟩)
          · exact ⟨0, (early_first active slot slots co).mpr content⟩
          · exact ⟨id + 1, (behind id).mpr early⟩
        · rintro ⟨id, early⟩
          cases id with
          | zero =>
            rw [early_first, content] at early
            exact Or.inl (Option.some.inj early).symm
          | succ id => exact Or.inr ⟨id, (behind id).mp early⟩

/-- The coroutines up to the active one are in the order of the slots. So none occurs twice among
them. -/
theorem up_to_sublist (active : Option Nat) (slots : List Slot) :
    (upTo active slots).Sublist (occupants slots) := by
  induction slots with
  | nil => exact List.Sublist.slnil
  | cons slot slots inductionHypothesis =>
    cases content : slot.content with
    | none =>
      rw [up_to_empty active slot slots content, occupants_empty slot slots content]
      exact inductionHypothesis
    | some co =>
      rw [occupants_taken slot slots co content]
      by_cases here : active = some co
      · rw [up_to_active active slot slots co content here]
        exact List.Sublist.cons_cons co (List.nil_sublist _)
      · rw [up_to_other active slot slots co content here]
        exact List.Sublist.cons_cons co inductionHypothesis

/-- The calls up to the active coroutine: one is made with a `ctx` that was never set if there
is one, and otherwise each is made with the live fiber of its coroutine. -/
theorem close_calls (selfReturns : Bool) (documented : Documented selfReturns deleteFiber)
    (active : Option Nat) (slots : List Slot) (state : State)
    (prepared : Prepared selfReturns active state (occupants slots)) :
    ((∃ co ∈ upTo active slots, ctxOf state co = none) →
      ∃ call ∈ closeFrom deleteFiber stale slots state, call.ctx = none) ∧
    ((∀ co ∈ upTo active slots, ctxOf state co ≠ none) →
      (closeFrom deleteFiber stale slots state).map Call.ctx =
          (upTo active slots).map (ctxOf state) ∧
        ∀ call ∈ closeFrom deleteFiber stale slots state, call.ctx = some call.handle ∧
          LiveFiber call.before call.handle) := by
  induction slots generalizing state with
  | nil => simp [upTo, closeFrom]
  | cons slot slots inductionHypothesis =>
    cases content : slot.content with
    | none =>
      have skipped : closeFrom deleteFiber stale (slot :: slots) state =
          closeFrom deleteFiber stale slots state := by simp only [closeFrom, content]
      rw [up_to_empty active slot slots content, skipped]
      rw [occupants_empty slot slots content] at prepared
      exact inductionHypothesis state prepared
    | some co =>
      rw [occupants_taken slot slots co content] at prepared
      obtain ⟨unset, given⟩ := close_slot deleteFiber stale selfReturns documented active slot slots
        state co content prepared
      cases ctx : ctxOf state co with
      | none =>
        obtain ⟨rest, calls⟩ := unset ctx
        constructor
        · exact fun _ => ⟨_, by rw [calls]; exact List.mem_cons_self, rfl⟩
        · intro all
          have first : Early active (slot :: slots) 0 co :=
            (early_first active slot slots co).mpr content
          exact absurd ctx (all co ((mem_up_to active (slot :: slots) co).mpr ⟨0, first⟩))
      | some fiber =>
        have alive := prepared.live co List.mem_cons_self fiber ctx
        rw [given fiber ctx]
        by_cases here : active = some co
        · rw [up_to_active active slot slots co content here, if_pos here]
          simp [ctx, alive]
        · have kept (other : Nat) (member : other ∈ upTo active slots) :
              ctxOf (gone state co fiber) other = ctxOf state other := by
            apply ctx_gone
            rintro rfl
            exact (List.nodup_cons.mp prepared.distinct).1
              ((up_to_sublist active slots).subset member)
          obtain ⟨unsetLater, setLater⟩ := inductionHypothesis (gone state co fiber)
            (prepared_gone selfReturns active state co fiber _ prepared ctx)
          rw [up_to_other active slot slots co content here, if_neg here]
          constructor
          · rintro ⟨other, member, isNone⟩
            rcases List.mem_cons.mp member with rfl | later
            · rw [ctx] at isNone
              cases isNone
            · obtain ⟨call, made, without⟩ :=
                unsetLater ⟨other, later, (kept other later).trans isNone⟩
              exact ⟨call, List.mem_cons_of_mem _ made, without⟩
          · intro all
            obtain ⟨same, live⟩ := setLater fun other member => by
              rw [kept other member]
              exact all other (List.mem_cons_of_mem co member)
            constructor
            · rw [List.map_cons, List.map_cons, same, List.map_congr_left kept, ctx]
            · intro call member
              rcases List.mem_cons.mp member with rfl | later
              · exact ⟨rfl, alive⟩
              · exact live call later

/-! ## The fibers of a schedule -/

/-- The calls delete exactly the live fibers: each is made with a `ctx` that was set and holds a
live fiber, and each fiber that is live before is deleted once. -/
structure ClosesExactly (state : State) (calls : List Call) : Prop where
  initialised : ∀ call ∈ calls, call.ctx ≠ none
  live : ∀ call ∈ calls, LiveFiber call.before call.handle
  once : ∀ fiber, LiveFiber state fiber → (calls.map Call.handle).count fiber = 1

/-- The loop comes to a slot: it does unless it is called by a coroutine before it, on whose
fiber the thread ends. -/
def Reached (selfReturns : Bool) (state : State) (id : Nat) : Prop :=
  selfReturns = false → ∀ own co, current state = some (own, co) → id ≤ own

/-- The coroutine on whose fiber the thread ends. There is none in the main fiber, nor if
`DeleteFiber` returns. -/
def endsAt (selfReturns : Bool) (state : State) : Option Nat :=
  if selfReturns then none else (current state).map Prod.snd

/-- The thread ends at the coroutine that calls. It does so only where `DeleteFiber` does not
return from the fiber that executes. -/
theorem ends_at_current (selfReturns : Bool) (state : State) (co : Nat) :
    endsAt selfReturns state = some co ↔
      selfReturns = false ∧ ∃ id, current state = some (id, co) := by
  cases selfReturns with
  | true => simp [endsAt]
  | false => simp [endsAt]

/-- The coroutines in the table are those whose functions have not returned. Both directions are
part of the consistency of the table. -/
theorem mem_table (watched : Watched) (consistent : Consistent watched) (co : Nat) :
    co ∈ occupants watched.state.sch.co ↔ ∃ id, watched.returned co = some id := by
  rw [mem_occupants]
  exact exists_congr fun id => consistent.placed id co

/-- What the loop needs to find in the table is there. A consistent state has the fibers and the
structures it asks for. -/
theorem settled_prepared (selfReturns : Bool) (watched : Watched)
    (consistent : Consistent watched) :
    Prepared selfReturns (endsAt selfReturns watched.state) watched.state
      (occupants watched.state.sch.co) := by
  have placed (co : Nat) (member : co ∈ occupants watched.state.sch.co) :=
    (mem_table watched consistent co).mp member
  have started (co : Nat) (member : co ∈ occupants watched.state.sch.co) (fiber : Nat)
      (ctx : ctxOf watched.state co = some fiber) :
      ∃ id, watched.state.fibers[fiber]? = some (.started id co) := by
    obtain ⟨id, returned⟩ := placed co member
    exact ⟨id, ctx_started watched consistent id co fiber returned ctx⟩
  refine ⟨?_, ?_, ?_, ?_, ?_⟩
  · apply occupants_distinct
    intro id other co here there
    have returned := (consistent.placed id co).mp here
    rw [(consistent.placed other co).mp there] at returned
    exact (Option.some.inj returned).symm
  · intro co member
    obtain ⟨id, returned⟩ := placed co member
    obtain ⟨coroutine, present, -⟩ := consistent.live co id returned
    exact ⟨coroutine, present⟩
  · intro co member fiber ctx
    obtain ⟨id, begun⟩ := started co member fiber ctx
    exact ⟨_, begun, by simp⟩
  · intro co member other otherMember fiber ctx otherCtx
    obtain ⟨id, begun⟩ := started co member fiber ctx
    obtain ⟨place, otherBegun⟩ := started other otherMember fiber otherCtx
    rw [begun] at otherBegun
    exact (Fiber.started.inj (Option.some.inj otherBegun)).2
  · intro co member fiber ctx
    obtain ⟨id, begun⟩ := started co member fiber ctx
    rw [ends_at_current]
    constructor
    · rintro ⟨executing, ends⟩
      exact ⟨ends, id, by simp [current, executing, begun]⟩
    · rintro ⟨ends, place, calls⟩
      obtain ⟨thread, executes⟩ := current_executes watched consistent place co calls
      have own : ctxOf watched.state co = some thread := by rw [ctxOf, executes.present]
      rw [ctx] at own
      obtain rfl := Option.some.inj own
      exact ⟨executes.executing, ends⟩

/-- The loop comes to the slots up to that of the coroutine that calls. This turns the loop over
slots into a statement about ids. -/
theorem reached_up_to (selfReturns : Bool) (watched : Watched) (consistent : Consistent watched)
    (id co : Nat) (returned : watched.returned co = some id) :
    co ∈ upTo (endsAt selfReturns watched.state) watched.state.sch.co ↔
      Reached selfReturns watched.state id := by
  rw [mem_up_to]
  constructor
  · rintro ⟨place, found, early⟩ ends own executing calls
    have same := (consistent.placed place co).mp found
    rw [returned] at same
    obtain rfl := Option.some.inj same
    obtain ⟨fiber, executes⟩ := current_executes watched consistent own executing calls
    exact early own executing ((ends_at_current _ _ _).mpr ⟨ends, own, calls⟩)
      ((consistent.placed own executing).mpr executes.returned)
  · intro reached
    refine ⟨id, (consistent.placed id co).mpr returned, ?_⟩
    intro own executing active found
    obtain ⟨ends, place, calls⟩ := (ends_at_current _ _ _).mp active
    obtain ⟨fiber, executes⟩ := current_executes watched consistent place executing calls
    have same := (consistent.placed own executing).mp found
    rw [executes.returned] at same
    obtain rfl := Option.some.inj same
    exact reached ends place executing calls

/-- With every `ctx` that the loop uses set, no fiber is deleted twice, and those of the
coroutines that the loop comes to are deleted. -/
theorem handles_once (selfReturns : Bool) (documented : Documented selfReturns deleteFiber)
    (active : Option Nat) (slots : List Slot) (state : State)
    (prepared : Prepared selfReturns active state (occupants slots))
    (given : ∀ co ∈ upTo active slots, ctxOf state co ≠ none) :
    ((closeFrom deleteFiber stale slots state).map Call.handle).Nodup ∧
      ∀ fiber, fiber ∈ (closeFrom deleteFiber stale slots state).map Call.handle ↔
        ∃ co ∈ upTo active slots, ctxOf state co = some fiber := by
  obtain ⟨same, live⟩ :=
    (close_calls deleteFiber stale selfReturns documented active slots state prepared).2 given
  have handles : ((closeFrom deleteFiber stale slots state).map Call.handle).map some =
      (upTo active slots).map (ctxOf state) := by
    rw [← same, List.map_map]
    exact List.map_congr_left fun call member => (live call member).1.symm
  have inTable (co : Nat) (member : co ∈ upTo active slots) : co ∈ occupants slots :=
    (up_to_sublist active slots).subset member
  constructor
  · apply List.Nodup.of_map some
    rw [handles]
    refine List.Nodup.map_on ?_ (prepared.distinct.sublist (up_to_sublist active slots))
    intro co member other otherMember equal
    obtain ⟨fiber, ctx⟩ := Option.ne_none_iff_exists'.mp (given co member)
    exact prepared.apart co (inTable co member) other (inTable other otherMember) fiber ctx
      (equal ▸ ctx)
  · intro fiber
    rw [← List.mem_map_of_injective (Option.some_injective Nat), handles, List.mem_map]

/-- Where exactly the live fibers are deleted, the loop comes to the coroutines that were resumed
before and to no other. -/
theorem closes_reached (selfReturns : Bool) (documented : Documented selfReturns deleteFiber)
    (watched : Watched) (consistent : Consistent watched)
    (closes : ClosesExactly watched.state
      (closeFrom deleteFiber stale watched.state.sch.co watched.state))
    (co id : Nat) (coroutine : Coroutine) (returned : watched.returned co = some id)
    (present : watched.state.coroutines[co]? = some (some coroutine)) :
    coroutine.status ≠ .ready ↔ Reached selfReturns watched.state id := by
  have prepared := settled_prepared selfReturns watched consistent
  have calls := close_calls deleteFiber stale selfReturns documented _ _ _ prepared
  have once := handles_once deleteFiber stale selfReturns documented _ _ _ prepared
  have reach := reached_up_to selfReturns watched consistent id co returned
  have unset := ctx_unset watched consistent id co coroutine returned present
  -- A `ctx` that is not set would be used by the loop.
  have given : ∀ co ∈ upTo (endsAt selfReturns watched.state) watched.state.sch.co,
      ctxOf watched.state co ≠ none := by
    intro other member isNone
    obtain ⟨call, made, without⟩ := calls.1 ⟨other, member, isNone⟩
    exact closes.initialised call made without
  constructor
  · intro resumed
    obtain ⟨fiber, ctx⟩ := Option.ne_none_iff_exists'.mp fun isNone => resumed (unset.mp isNone)
    have begun := ctx_started watched consistent id co fiber returned ctx
    have deleted := closes.once fiber ⟨_, begun, by simp⟩
    have member := List.count_pos_iff.mp (by rw [deleted]; exact Nat.one_pos)
    obtain ⟨other, early, otherCtx⟩ := ((once given).2 fiber).mp member
    have same : other = co := prepared.apart other ((up_to_sublist _ _).subset early) co
      ((mem_table watched consistent co).mpr ⟨id, returned⟩) fiber otherCtx ctx
    exact reach.mp (same ▸ early)
  · intro reached ready
    exact given co (reach.mpr reached) (unset.mpr ready)

/-- Where the loop comes to the coroutines that were resumed before and to no other, it deletes
exactly the live fibers. -/
theorem reached_closes (selfReturns : Bool) (documented : Documented selfReturns deleteFiber)
    (watched : Watched) (settled : Settled watched)
    (exactly : ∀ co id coroutine, watched.returned co = some id →
      watched.state.coroutines[co]? = some (some coroutine) →
      (coroutine.status ≠ .ready ↔ Reached selfReturns watched.state id)) :
    ClosesExactly watched.state
      (closeFrom deleteFiber stale watched.state.sch.co watched.state) := by
  have consistent := settled.sized.consistent
  have prepared := settled_prepared selfReturns watched consistent
  have given : ∀ co ∈ upTo (endsAt selfReturns watched.state) watched.state.sch.co,
      ctxOf watched.state co ≠ none := by
    intro co member isNone
    obtain ⟨id, returned⟩ :=
      (mem_table watched consistent co).mp ((up_to_sublist _ _).subset member)
    obtain ⟨coroutine, present, -⟩ := consistent.live co id returned
    have reached := (reached_up_to selfReturns watched consistent id co returned).mp member
    exact (exactly co id coroutine returned present).mpr reached
      ((ctx_unset watched consistent id co coroutine returned present).mp isNone)
  obtain ⟨-, live⟩ :=
    (close_calls deleteFiber stale selfReturns documented _ _ _ prepared).2 given
  obtain ⟨distinct, handles⟩ :=
    handles_once deleteFiber stale selfReturns documented _ _ _ prepared given
  refine ⟨?_, fun call member => (live call member).2, ?_⟩
  · intro call member
    rw [(live call member).1]
    exact Option.some_ne_none _
  · rintro fiber ⟨begun, found, alive⟩
    rcases settled.owned fiber begun found with deleted | ⟨id, co, status, -, returned, has⟩
    · exact absurd deleted alive
    · have ctx : ctxOf watched.state co = some fiber := by rw [ctxOf, has]
      have resumed : status ≠ .ready := by
        intro ready
        have isNone := (ctx_unset watched consistent id co _ returned has).mpr ready
        rw [isNone] at ctx
        cases ctx
      have member := (reached_up_to selfReturns watched consistent id co returned).mpr
        ((exactly co id _ returned has).mp resumed)
      exact List.count_eq_one_of_mem distinct ((handles fiber).mpr ⟨co, member, ctx⟩)

/-- `coroutine_close` deletes exactly the live fibers exactly when its loop comes to the
coroutines that were resumed before and to no other. Proof: in a consistent state the loop deletes
the fiber of each coroutine it comes to, and one that was never resumed has none. -/
theorem closes_exactly (selfReturns : Bool) (documented : Documented selfReturns deleteFiber)
    (actions : List Action) (watched : Watched)
    (few : ∀ watched garbage, Takes (performWith deleteFiber stale) opened actions watched
      (.new garbage) → liveCount watched.state < 16)
    (visits : Visits (performWith deleteFiber stale) opened actions watched) :
    ClosesExactly watched.state (coroutineClose deleteFiber stale watched.state) ↔
      ∀ co id coroutine, watched.returned co = some id →
        watched.state.coroutines[co]? = some (some coroutine) →
        (coroutine.status ≠ .ready ↔ Reached selfReturns watched.state id) := by
  have settled : Settled watched := visits_sized deleteFiber stale selfReturns documented Settled
    (fun _ settled => settled.sized) perform_settled actions watched opened_settled few visits
  have consistent := settled.sized.consistent
  have whole : watched.state.sch.co.take watched.state.sch.cap = watched.state.sch.co :=
    List.take_of_length_le (Nat.le_of_eq consistent.length)
  rw [coroutineClose, whole]
  constructor
  · intro closes co id coroutine returned present
    exact closes_reached deleteFiber stale selfReturns documented watched consistent closes co id
      coroutine returned present
  · exact reached_closes deleteFiber stale selfReturns documented watched settled

end Parameters

/-- A coroutine was resumed and has yielded. Its fiber is the one that is deleted. -/
theorem suspended_closes :
    ∃ watched, Visits (performWith systemDelete id) opened [.new fun _ => none, .resume 0, .yield]
        watched ∧
      watched.state.executing = none ∧
      ClosesExactly watched.state (coroutineClose systemDelete id watched.state) := by
  refine ⟨_, .later _ _ _ _ _ rfl (.later _ _ _ _ _ rfl (.later _ _ _ _ _ rfl (.here _ _))), rfl,
    (closes_exactly systemDelete id false system_documented
      [.new fun _ => none, .resume 0, .yield] _ ?_
      (.later _ _ _ _ _ rfl (.later _ _ _ _ _ rfl (.later _ _ _ _ _ rfl (.here _ _))))).mpr ?_⟩
  · intro watched garbage takes
    obtain rfl := takes_first (performWith systemDelete id)
      (fun action => ∃ garbage, action = .new garbage) opened watched _ _ _ (by simp)
      ⟨garbage, rfl⟩ takes
    decide
  · intro co place coroutine returned present
    have first : co = 0 := by
      have below := (List.getElem?_eq_some_iff.mp present).choose
      exact Nat.lt_one_iff.mp below
    subst first
    have same : some (some (Coroutine.mk .suspend (some 0))) = some (some coroutine) := present
    obtain rfl := Option.some.inj (Option.some.inj same)
    constructor
    · rintro - - own executing ⟨⟩
    · exact fun _ => by decide

/-- A coroutine is created and never resumed: `coroutine_close` gives `DeleteFiber` a `ctx` that
was never set. It may be any number. -/
theorem unset_ctx_deleted :
    ∃ watched, Visits (performWith systemDelete id) opened [.new fun _ => none] watched ∧
      watched.state.executing = none ∧
      (coroutineClose systemDelete id watched.state).map Call.ctx = [none] ∧
      ¬ ClosesExactly watched.state (coroutineClose systemDelete id watched.state) := by
  refine ⟨_, .later _ _ _ _ _ rfl (.here _ _), rfl, rfl, ?_⟩
  intro closes
  exact closes.initialised _ List.mem_cons_self rfl

end EffiLib.Coroutines
