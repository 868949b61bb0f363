import EffiLib.Coroutines.Schedule

/-!
# Consistency of slots, coroutines and fibers

While no table grows, the slots hold exactly the coroutines whose functions have not
returned, each at the id that was returned for it; a coroutine that was resumed has a fiber
that knows its id; and `running` names the coroutine that executes, if one does.
-/

namespace EffiLib.Coroutines

open Runs

/-- A coroutine and its fiber: none before the first resume, and later a fiber in its
function that knows the id. -/
def Fits (fibers : List Fiber) (co id : Nat) (coroutine : Coroutine) : Prop :=
  (coroutine.status = .ready ∧ coroutine.ctx = none) ∨
  ((coroutine.status = .running ∨ coroutine.status = .suspend) ∧
    ∃ fiber, coroutine.ctx = some fiber ∧ fibers[fiber]? = some (.started id co))

/-- A coroutine executes on a fiber: `running` names it and its status says so. These are the
places where the code records it. -/
structure Executes (watched : Watched) (fiber id co : Nat) : Prop where
  executing : watched.state.executing = some fiber
  running : watched.state.sch.running = id
  returned : watched.returned co = some id
  present : watched.state.coroutines[co]? = some (some ⟨.running, some fiber⟩)
  started : watched.state.fibers[fiber]? = some (.started id co)

/-- The table, the structures and the fibers agree. It is the invariant of all runs in which the
table does not grow. -/
structure Consistent (watched : Watched) : Prop where
  length : watched.state.sch.co.length = watched.state.sch.cap
  room : 0 < watched.state.sch.cap
  written : ∀ slot ∈ watched.state.sch.co, slot.written = true
  placed : ∀ id co, contentAt watched.state.sch.co id = some co ↔ watched.returned co = some id
  counted : watched.state.sch.nco = watched.state.sch.co.countP (·.content.isSome)
  live : ∀ co id, watched.returned co = some id →
    ∃ coroutine, watched.state.coroutines[co]? = some (some coroutine) ∧
      Fits watched.state.fibers co id coroutine
  known : ∀ co coroutine, watched.state.coroutines[co]? = some (some coroutine) →
    ∃ id, watched.returned co = some id
  executes : (watched.state.executing = none ∧ watched.state.sch.running = -1) ∨
    ∃ fiber id co, Executes watched fiber id co

/-! ## Slots -/

/-- The content of the slots after one is written. The written slot has the new content, and the
others stay. -/
theorem content_set (co : List Slot) (id other : Nat) (slot : Slot) (inside : id < co.length) :
    contentAt (co.set id slot) other = if other = id then slot.content else contentAt co other := by
  simp only [contentAt, List.getElem?_set]
  by_cases same : other = id
  · subst same
    simp [inside]
  · simp [same, Ne.symm same]

/-- A slot with content is in the table. Outside of the table there is none. -/
theorem content_inside (co : List Slot) (id coroutine : Nat)
    (content : contentAt co id = some coroutine) : id < co.length := by
  by_contra outside
  simp [contentAt, List.getElem?_eq_none (Nat.le_of_not_lt outside)] at content

/-- The number of used slots after one is written. What the slot counted before is taken off. -/
theorem count_set (co : List Slot) (id : Nat) (slot : Slot) (inside : id < co.length) :
    (co.set id slot).countP (·.content.isSome) =
      co.countP (·.content.isSome) - (if (contentAt co id).isSome then 1 else 0) +
        (if slot.content.isSome then 1 else 0) := by
  rw [List.countP_set inside, contentAt, List.getElem?_eq_getElem inside, Option.bind_some]

/-- Every slot is probed. The probing begins in the middle and goes round. -/
theorem probe_complete (sch : Schedule) (id : Nat) (inside : id < sch.cap) : id ∈ probe sch := by
  have room : 0 < sch.cap := Nat.zero_lt_of_lt inside
  have start : sch.nco % sch.cap < sch.cap := Nat.mod_lt _ room
  have back : ((id + (sch.cap - sch.nco % sch.cap)) % sch.cap + sch.nco) % sch.cap = id := by
    have parts := Nat.div_add_mod sch.nco sch.cap
    have whole : id + (sch.cap - sch.nco % sch.cap) + sch.nco =
        id + sch.cap * (sch.nco / sch.cap + 1) := by
      rw [Nat.mul_succ]
      omega
    rw [Nat.mod_add_mod, whole, Nat.add_mul_mod_self_left, Nat.mod_eq_of_lt inside]
  rw [probe, List.mem_map]
  exact ⟨_, List.mem_range.mpr (Nat.mod_lt _ room), back⟩

/-- A table with fewer coroutines than slots has a free slot, and the probes find one. Proof: a
full table would count as many coroutines as it has slots. -/
theorem probe_finds (sch : Schedule) (length : sch.co.length = sch.cap)
    (counted : sch.nco = sch.co.countP (·.content.isSome)) (free : sch.nco < sch.cap) :
    ∃ id, (probe sch).find? (fun id => contentAt sch.co id = none) = some id ∧
      id < sch.cap ∧ contentAt sch.co id = none := by
  obtain ⟨slot, member, empty⟩ : ∃ slot ∈ sch.co, ¬ slot.content.isSome = true := by
    by_contra all
    have full : ∀ slot ∈ sch.co, slot.content.isSome = true := by
      intro slot member
      by_contra empty
      exact all ⟨slot, member, empty⟩
    rw [List.countP_eq_length.mpr full, length] at counted
    omega
  obtain ⟨id, inside, rfl⟩ := List.getElem_of_mem member
  have vacant : contentAt sch.co id = none := by
    simpa [contentAt, inside] using empty
  cases found : (probe sch).find? (fun id => contentAt sch.co id = none) with
  | none =>
    have occupied := List.find?_eq_none.mp found id (probe_complete sch id (length ▸ inside))
    simp [vacant] at occupied
  | some first =>
    have chosen := List.find?_some found
    obtain ⟨i, -, rfl⟩ := List.mem_map.mp (List.mem_of_find?_eq_some found)
    exact ⟨_, rfl, Nat.mod_lt _ (Nat.zero_lt_of_lt free), by simpa using chosen⟩

/-! ## What each call does -/

/-- The state after `coroutine_new` has put the next coroutine into a slot. It has the next
number. -/
def created (state : State) (id : Nat) : State :=
  { state with
    sch := { state.sch with
      nco := state.sch.nco + 1
      co := state.sch.co.set id ⟨some state.coroutines.length, true⟩ }
    coroutines := state.coroutines ++ [some ⟨.ready, none⟩] }

/-- The state after `coroutine_resume` has switched to a fiber. The fibers may be more by the one
that was created for it. -/
def entered (state : State) (id co fiber : Nat) (fibers : List Fiber) : State :=
  { sch := { state.sch with running := id }
    coroutines := state.coroutines.set co (some ⟨.running, some fiber⟩)
    fibers := fibers
    executing := some fiber }

/-- The state after `coroutine_yield`. The main fiber executes then. -/
def suspended (state : State) (co : Nat) (coroutine : Coroutine) : State :=
  { state with
    sch := { state.sch with running := -1 }
    coroutines := state.coroutines.set co (some { coroutine with status := .suspend })
    executing := none }

/-- The state after a coroutine function has returned. Slot, structure and fiber of the coroutine
are given back. -/
def finished (state : State) (id co fiber : Nat) : State :=
  { sch := { state.sch with
      nco := state.sch.nco - 1
      running := -1
      co := state.sch.co.set id ⟨none, true⟩ }
    coroutines := state.coroutines.set co none
    fibers := state.fibers.set fiber .deleted
    executing := none }

/-- With a slot free, `coroutine_new` returns a free slot and puts the coroutine there. Proof: the
probing passes every slot, so it finds the free one. -/
theorem new_creates (watched : Watched) (garbage : Nat → Option Nat)
    (consistent : Consistent watched) (free : watched.state.sch.nco < watched.state.sch.cap) :
    ∃ id, id < watched.state.sch.cap ∧ contentAt watched.state.sch.co id = none ∧
      coroutineNew garbage watched.state = .ok (created watched.state id, id) := by
  obtain ⟨id, found, inside, vacant⟩ :=
    probe_finds watched.state.sch consistent.length consistent.counted free
  refine ⟨id, inside, vacant, ?_⟩
  rw [coroutineNew]
  simp only [if_neg (Nat.not_le_of_lt free), found]
  rfl

/-- Reading the slot of a coroutine. The table is not read outside. -/
theorem slot_read (sch : Schedule) (id co : Nat) (content : contentAt sch.co id = some co) :
    slotAt sch id = .ok (some co) := by
  have inside := content_inside sch.co id co content
  rw [slotAt, if_pos ⟨by omega, by omega⟩, Int.toNat_natCast, content]

/-- Following the pointer to a coroutine. The structure has not been freed. -/
theorem deref_read (state : State) (co : Nat) (coroutine : Coroutine)
    (present : state.coroutines[co]? = some (some coroutine)) :
    deref state co = .ok coroutine := by
  rw [deref, present]

/-- Reading the slot of a coroutine and following the pointer. Every function of the source that
takes an id begins so. -/
theorem coroutine_read (state : State) (id co : Nat) (coroutine : Coroutine)
    (content : contentAt state.sch.co id = some co)
    (present : state.coroutines[co]? = some (some coroutine)) :
    coroutineAt state id = .ok (co, coroutine) := by
  rw [coroutineAt, slot_read _ _ _ content]
  change (deref state co >>= fun coroutine => Except.ok (co, coroutine)) = _
  rw [deref_read _ _ _ present]
  rfl

/-- A fiber that was only created begins in the function of the coroutine that is named by
`running`. -/
theorem switch_begins (state : State) (fiber id co : Nat) (coroutine : Coroutine)
    (fresh : state.fibers[fiber]? = some .created) (running : state.sch.running = id)
    (content : contentAt state.sch.co id = some co)
    (present : state.coroutines[co]? = some (some coroutine)) :
    switchToFiber state fiber = .ok { state with
      fibers := state.fibers.set fiber (.started id co)
      executing := some fiber } := by
  have read := coroutine_read state id co coroutine content present
  rw [switchToFiber, fresh, running]
  simp only [read, bind, Except.bind, Int.toNat_natCast]

/-- The fiber on which a coroutine is entered: its own, or for want of one a new one behind the
others, which begins the coroutine's function. -/
def EnteredOn (state : State) (id co : Nat) (coroutine : Coroutine) (fiber : Nat)
    (fibers : List Fiber) : Prop :=
  (coroutine.ctx = some fiber ∧ fibers = state.fibers) ∨
  (coroutine.ctx = none ∧ fiber = state.fibers.length ∧
    fibers = state.fibers ++ [.started id co])

/-- A coroutine that is ready or suspended is entered. The fibers of the others stay. A ready one
gets a new fiber, a suspended one is switched to. -/
theorem resume_enters (watched : Watched) (id co : Nat) (coroutine : Coroutine)
    (consistent : Consistent watched) (returned : watched.returned co = some id)
    (present : watched.state.coroutines[co]? = some (some coroutine))
    (idle : coroutine.status = .ready ∨ coroutine.status = .suspend) :
    ∃ (fiber : Nat) (fibers : List Fiber), coroutineResume id watched.state =
        .ok (entered watched.state id co fiber fibers) ∧
      fibers[fiber]? = some (.started id co) ∧
      (∀ (other place owner : Nat), watched.state.fibers[other]? = some (.started place owner) →
        fibers[other]? = some (.started place owner)) ∧
      EnteredOn watched.state id co coroutine fiber fibers := by
  have content := (consistent.placed id co).mpr returned
  have inside : co < watched.state.coroutines.length :=
    (List.getElem?_eq_some_iff.mp present).choose
  obtain ⟨other, found, fits⟩ := consistent.live co id returned
  obtain rfl : coroutine = other := by
    rw [present] at found
    simpa using found
  rcases fits with ⟨ready, unset⟩ | ⟨started, fiber, ctx, begun⟩
  · refine ⟨watched.state.fibers.length, watched.state.fibers ++ [.started id co], ?_, ?_, ?_,
      Or.inr ⟨unset, rfl, rfl⟩⟩
    · have slot := slot_read _ _ _ content
      have struct := deref_read _ _ _ present
      have begins := switch_begins (State.put { watched.state with
        sch := { watched.state.sch with running := id }
        fibers := watched.state.fibers ++ [.created] } co
          ⟨.running, some watched.state.fibers.length⟩)
        watched.state.fibers.length id co ⟨.running, some watched.state.fibers.length⟩
        (by simp [State.put]) rfl content (by simp [State.put, inside])
      simp only [coroutineResume, slot, struct, bind, Except.bind, ready, enter, begins]
      simp [State.put, entered]
    · simp
    · intro other place owner begun
      have below := (List.getElem?_eq_some_iff.mp begun).choose
      rw [List.getElem?_append_left below, begun]
  · have suspend : coroutine.status = .suspend := by
      rcases idle with ready | suspend
      · simp [ready] at started
      · exact suspend
    refine ⟨fiber, watched.state.fibers, ?_, begun, fun _ _ _ other => other,
      Or.inl ⟨ctx, rfl⟩⟩
    have slot := slot_read _ _ _ content
    have struct := deref_read _ _ _ present
    simp only [coroutineResume, slot, struct, bind, Except.bind, suspend, ctx, enter,
      switchToFiber, State.put, begun]
    rfl

/-- A coroutine whose status is `COROUTINE_RUNNING` cannot be resumed. The switch of the source
ends in `assert(0)` there. -/
theorem resume_asserts (watched : Watched) (id co : Nat) (ctx : Option Nat)
    (consistent : Consistent watched) (returned : watched.returned co = some id)
    (present : watched.state.coroutines[co]? = some (some ⟨.running, ctx⟩)) :
    coroutineResume id watched.state = .error .assertion := by
  have slot := slot_read _ _ _ ((consistent.placed id co).mpr returned)
  have struct := deref_read _ _ _ present
  simp only [coroutineResume, slot, struct, bind, Except.bind]

/-- A resume that returns has found an empty slot, or a coroutine that was ready or suspended. A
running one would have reached the assertion. -/
theorem resume_cases (watched : Watched) (id : Int) (state : State)
    (consistent : Consistent watched)
    (resumed : coroutineResume id watched.state = .ok state) :
    state = watched.state ∨ ∃ (place co : Nat) (coroutine : Coroutine), id = place ∧
      watched.returned co = some place ∧
      watched.state.coroutines[co]? = some (some coroutine) ∧
      (coroutine.status = .ready ∨ coroutine.status = .suspend) := by
  by_cases inside : 0 ≤ id ∧ id < watched.state.sch.co.length
  · obtain ⟨place, rfl⟩ := Int.eq_ofNat_of_zero_le inside.1
    cases content : contentAt watched.state.sch.co place with
    | none =>
      have slot : slotAt watched.state.sch place = .ok none := by
        rw [slotAt, if_pos inside, Int.toNat_natCast, content]
      simp only [coroutineResume, slot, bind, Except.bind] at resumed
      exact Or.inl (Except.ok.inj resumed).symm
    | some co =>
      have returned := (consistent.placed place co).mp content
      obtain ⟨coroutine, present, fits⟩ := consistent.live co place returned
      refine Or.inr ⟨place, co, coroutine, rfl, returned, present, ?_⟩
      rcases fits with ⟨ready, -⟩ | ⟨running | suspend, -⟩
      · exact Or.inl ready
      · obtain ⟨status, ctx⟩ := coroutine
        obtain rfl : status = .running := running
        have stopped := resume_asserts watched place co ctx consistent returned present
        rw [stopped] at resumed
        simp at resumed
      · exact Or.inr suspend
  · have outside : slotAt watched.state.sch id = .error .outOfBounds := by
      rw [slotAt, if_neg inside]
    simp only [coroutineResume, outside, bind, Except.bind] at resumed
    simp at resumed

/-- A yield that returns was called by the coroutine that executes. The source asserts that there
is one. -/
theorem yield_suspends (watched : Watched) (state : State) (consistent : Consistent watched)
    (yielded : coroutineYield watched.state = .ok state) :
    ∃ fiber id co, Executes watched fiber id co ∧
      state = suspended watched.state co ⟨.running, some fiber⟩ := by
  rcases consistent.executes with ⟨-, idle⟩ | ⟨fiber, id, co, executes⟩
  · simp [coroutineYield, idle] at yielded
  · refine ⟨fiber, id, co, executes, ?_⟩
    have read := coroutine_read watched.state id co _
      ((consistent.placed id co).mpr executes.returned) executes.present
    have positive : ¬ (id : Int) < 0 := by omega
    simp only [coroutineYield, executes.running, if_neg positive, read, bind, Except.bind]
      at yielded
    exact (Except.ok.inj yielded).symm

/-- The coroutine that executes is the one in whose function the fiber is. The `running` field of
the schedule names it as well. -/
theorem executes_current (watched : Watched) (fiber id co : Nat)
    (executes : Executes watched fiber id co) : current watched.state = some (id, co) := by
  simp only [current, executes.executing, Option.bind_some, executes.started]

/-- A coroutine that executes can return. The slot, the structure and the fiber are there to be
given back. -/
theorem finish_returns (watched : Watched) (fiber id co : Nat) (consistent : Consistent watched)
    (executes : Executes watched fiber id co) :
    finish watched.state = .ok (finished watched.state id co fiber) := by
  have slot := slot_read _ _ _ ((consistent.placed id co).mpr executes.returned)
  have struct := deref_read _ _ _ executes.present
  simp only [finish, executes_current watched fiber id co executes, slot, struct, bind, Except.bind]
  rfl

/-- A return of a coroutine function is one of the coroutine that executes. The source finds it by
the `running` field. -/
theorem finish_frees (watched : Watched) (state : State) (consistent : Consistent watched)
    (returned : finish watched.state = .ok state) :
    ∃ fiber id co, Executes watched fiber id co ∧ current watched.state = some (id, co) ∧
      state = finished watched.state id co fiber := by
  rcases consistent.executes with ⟨main, -⟩ | ⟨fiber, id, co, executes⟩
  · simp [finish, current, main] at returned
  · have returns := finish_returns watched fiber id co consistent executes
    exact ⟨fiber, id, co, executes, executes_current watched fiber id co executes,
      Except.ok.inj (returned.symm.trans returns)⟩

/-! ## Preservation -/

/-- The next coroutine has not been returned. Its structure does not exist yet. -/
theorem next_unknown (watched : Watched) (consistent : Consistent watched) :
    watched.returned watched.state.coroutines.length = none := by
  cases returned : watched.returned watched.state.coroutines.length with
  | none => rfl
  | some id =>
    obtain ⟨coroutine, present, -⟩ := consistent.live _ id returned
    simp at present

/-- A slot and an id that are written together stay together, when the slot held no other
coroutine and the coroutine no other slot. -/
theorem placed_written (slots : List Slot) (returned : Nat → Option Nat) (id co : Nat)
    (content place : Option Nat) (inside : id < slots.length)
    (placed : ∀ other owner, contentAt slots other = some owner ↔ returned owner = some other)
    (slotFree : ∀ owner, owner ≠ co → contentAt slots id ≠ some owner)
    (ownerFree : ∀ other, other ≠ id → returned co ≠ some other)
    (together : (content = some co ∧ place = some id) ∨ (content = none ∧ place = none))
    (other owner : Nat) :
    contentAt (slots.set id ⟨content, true⟩) other = some owner ↔
      Function.update returned co place owner = some other := by
  rw [content_set _ _ _ _ inside, Function.update_apply]
  by_cases here : other = id
  · by_cases same : owner = co
    · rcases together with ⟨rfl, rfl⟩ | ⟨rfl, rfl⟩ <;> simp [here, same]
    · have before : returned owner ≠ some id := (placed id owner).not.mp (slotFree owner same)
      rcases together with ⟨rfl, -⟩ | ⟨rfl, -⟩ <;> simp [here, same, Ne.symm same, before]
  · by_cases same : owner = co
    · have before : contentAt slots other ≠ some co :=
        (placed other co).not.mpr (ownerFree other here)
      rcases together with ⟨-, rfl⟩ | ⟨-, rfl⟩ <;> simp [here, same, Ne.symm here, before]
    · rw [if_neg here, if_neg same, placed]

/-- Creating a coroutine in a free slot keeps everything consistent. The id is free, so no other
coroutine is there. -/
theorem created_consistent (watched : Watched) (id : Nat) (consistent : Consistent watched)
    (inside : id < watched.state.sch.cap) (vacant : contentAt watched.state.sch.co id = none) :
    Consistent ⟨created watched.state id,
      Function.update watched.returned watched.state.coroutines.length (some id)⟩ := by
  have unknown := next_unknown watched consistent
  have within : id < watched.state.sch.co.length := consistent.length ▸ inside
  have table (co : Nat) : Function.update watched.returned watched.state.coroutines.length
      (some id) co = if co = watched.state.coroutines.length then some id
        else watched.returned co := Function.update_apply _ _ _ _
  have next (co : Nat) (coroutine : Option Coroutine)
      (present : watched.state.coroutines[co]? = some coroutine) :
      (created watched.state id).coroutines[co]? = some coroutine := by
    have below := (List.getElem?_eq_some_iff.mp present).choose
    exact (List.getElem?_append_left below).trans present
  have other (co : Nat) (place : Nat) (returned : watched.returned co = some place) :
      Function.update watched.returned watched.state.coroutines.length (some id) co =
        some place := by
    rw [table, if_neg (fun same => by simp [same, unknown] at returned), returned]
  refine ⟨?_, consistent.room, ?_, ?_, ?_, ?_, ?_, ?_⟩
  · simpa [created] using consistent.length
  · intro slot member
    rcases List.mem_or_eq_of_mem_set member with old | rfl
    · exact consistent.written slot old
    · rfl
  · exact placed_written _ _ _ _ _ _ within consistent.placed (by simp [vacant])
      (by simp [unknown]) (Or.inl ⟨rfl, rfl⟩)
  · change watched.state.sch.nco + 1 = (watched.state.sch.co.set id _).countP _
    rw [count_set _ _ _ within, vacant, consistent.counted]
    rfl
  · intro co place returned
    have entry := (table co).symm.trans returned
    by_cases same : co = watched.state.coroutines.length
    · exact ⟨⟨.ready, none⟩, by simp [created, same], Or.inl ⟨rfl, rfl⟩⟩
    · rw [if_neg same] at entry
      obtain ⟨coroutine, present, fits⟩ := consistent.live co place entry
      exact ⟨coroutine, next co _ present, fits⟩
  · intro co coroutine present
    by_cases below : co < watched.state.coroutines.length
    · have old := (List.getElem?_append_left below).symm.trans present
      obtain ⟨place, returned⟩ := consistent.known co coroutine old
      exact ⟨place, other co place returned⟩
    · have last : co = watched.state.coroutines.length := by
        have within := (List.getElem?_eq_some_iff.mp present).choose
        simp only [created, List.length_append, List.length_singleton] at within
        omega
      exact ⟨id, by rw [last]; exact Function.update_self _ _ _⟩
  · rcases consistent.executes with main | ⟨fiber, place, co, executes⟩
    · exact Or.inl main
    · exact Or.inr ⟨fiber, place, co, executes.executing, executes.running,
        other co place executes.returned, next co _ executes.present, executes.started⟩

/-- Structures that are not written stay. Only the place that is written changes. -/
theorem present_set (coroutines : List (Option Coroutine)) (co other : Nat)
    (coroutine : Option Coroutine) (apart : other ≠ co) :
    (coroutines.set co coroutine)[other]? = coroutines[other]? :=
  List.getElem?_set_ne (Ne.symm apart)

/-- A written structure is read back. The place is in the list, as it was read before. -/
theorem present_self (coroutines : List (Option Coroutine)) (co : Nat)
    (before coroutine : Option Coroutine) (present : coroutines[co]? = some before) :
    (coroutines.set co coroutine)[co]? = some coroutine :=
  List.getElem?_set_self (List.getElem?_eq_some_iff.mp present).choose

/-- What is read after one structure is written: that one, or what was there before. The
invariants are kept case by case. -/
theorem present_cases (coroutines : List (Option Coroutine)) (co other : Nat)
    (before coroutine found : Option Coroutine) (present : coroutines[co]? = some before)
    (read : (coroutines.set co coroutine)[other]? = some found) :
    (other = co ∧ found = coroutine) ∨ (other ≠ co ∧ coroutines[other]? = some found) := by
  by_cases same : other = co
  · subst same
    rw [present_self _ _ _ _ present] at read
    exact Or.inl ⟨rfl, (Option.some.inj read).symm⟩
  · exact Or.inr ⟨same, (present_set _ _ _ _ same).symm.trans read⟩

/-- A coroutine that is written with a fiber to fit keeps every coroutine live at its id. Fibers
that began for a coroutine go on belonging to it. -/
theorem live_written (watched : Watched) (id co : Nat) (before after : Coroutine)
    (fibers : List Fiber) (consistent : Consistent watched)
    (returned : watched.returned co = some id)
    (present : watched.state.coroutines[co]? = some (some before))
    (fitting : Fits fibers co id after)
    (stays : ∀ (other place owner : Nat), watched.state.fibers[other]? =
      some (.started place owner) → fibers[other]? = some (.started place owner))
    (other place : Nat) (known : watched.returned other = some place) :
    ∃ coroutine, (watched.state.coroutines.set co (some after))[other]? = some (some coroutine) ∧
      Fits fibers other place coroutine := by
  by_cases same : other = co
  · have here : place = id := by
      rw [same, returned] at known
      exact (Option.some.inj known).symm
    subst same here
    exact ⟨after, present_self _ _ _ _ present, fitting⟩
  · obtain ⟨kept, old, fits⟩ := consistent.live other place known
    refine ⟨kept, (present_set _ _ _ _ same).trans old, ?_⟩
    rcases fits with unstarted | ⟨status, thread, ctx, begun⟩
    · exact Or.inl unstarted
    · exact Or.inr ⟨status, thread, ctx, stays _ _ _ begun⟩

/-- A coroutine that is written keeps the ids of all structures. The structure was there before,
with the same id. -/
theorem known_written (watched : Watched) (id co : Nat) (before after : Coroutine)
    (consistent : Consistent watched) (returned : watched.returned co = some id)
    (present : watched.state.coroutines[co]? = some (some before)) (other : Nat)
    (kept : Coroutine)
    (now : (watched.state.coroutines.set co (some after))[other]? = some (some kept)) :
    ∃ place, watched.returned other = some place := by
  rcases present_cases _ _ _ _ _ _ present now with ⟨rfl, -⟩ | ⟨-, old⟩
  · exact ⟨id, returned⟩
  · exact consistent.known other kept old

/-- Entering a coroutine keeps everything consistent. Its status and its `ctx` are written, and
the schedule names it. -/
theorem entered_consistent (watched : Watched) (id co fiber : Nat) (coroutine : Coroutine)
    (fibers : List Fiber) (consistent : Consistent watched)
    (returned : watched.returned co = some id)
    (present : watched.state.coroutines[co]? = some (some coroutine))
    (started : fibers[fiber]? = some (.started id co))
    (stays : ∀ (other place owner : Nat), watched.state.fibers[other]? =
      some (.started place owner) → fibers[other]? = some (.started place owner)) :
    Consistent ⟨entered watched.state id co fiber fibers, watched.returned⟩ := by
  have written := present_self watched.state.coroutines co _ (some ⟨.running, some fiber⟩) present
  have fits : Fits fibers co id ⟨.running, some fiber⟩ := Or.inr ⟨Or.inl rfl, fiber, rfl, started⟩
  exact ⟨consistent.length, consistent.room, consistent.written, consistent.placed,
    consistent.counted,
    live_written watched id co coroutine _ fibers consistent returned present fits stays,
    known_written watched id co coroutine _ consistent returned present,
    Or.inr ⟨fiber, id, co, rfl, rfl, returned, written, started⟩⟩

/-- A yield keeps everything consistent. Only its status is written and the schedule names
none. -/
theorem suspended_consistent (watched : Watched) (fiber id co : Nat)
    (consistent : Consistent watched) (executes : Executes watched fiber id co) :
    Consistent ⟨suspended watched.state co ⟨.running, some fiber⟩, watched.returned⟩ := by
  have fits : Fits watched.state.fibers co id ⟨.suspend, some fiber⟩ :=
    Or.inr ⟨Or.inr rfl, fiber, rfl, executes.started⟩
  exact ⟨consistent.length, consistent.room, consistent.written, consistent.placed,
    consistent.counted,
    live_written watched id co _ _ _ consistent executes.returned executes.present fits
      (fun _ _ _ same => same),
    known_written watched id co _ _ consistent executes.returned executes.present,
    Or.inl ⟨rfl, rfl⟩⟩

/-- A return keeps everything consistent: the slot, the structure and the fiber of the coroutine
go together. No other coroutine has that id or that fiber. -/
theorem finished_consistent (watched : Watched) (fiber id co : Nat)
    (consistent : Consistent watched) (executes : Executes watched fiber id co) :
    Consistent ⟨finished watched.state id co fiber,
      Function.update watched.returned co none⟩ := by
  have content := (consistent.placed id co).mpr executes.returned
  have within := content_inside _ _ _ content
  have table (other : Nat) : Function.update watched.returned co none other =
      if other = co then none else watched.returned other := Function.update_apply _ _ _ _
  refine ⟨?_, consistent.room, ?_, ?_, ?_, ?_, ?_, Or.inl ⟨rfl, rfl⟩⟩
  · simpa [finished] using consistent.length
  · intro slot member
    rcases List.mem_or_eq_of_mem_set member with old | rfl
    · exact consistent.written slot old
    · rfl
  · exact placed_written _ _ _ _ _ _ within consistent.placed
      (fun owner apart => by simp [content, Ne.symm apart])
      (fun other apart => by simp [executes.returned, Ne.symm apart]) (Or.inr ⟨rfl, rfl⟩)
  · change watched.state.sch.nco - 1 = (watched.state.sch.co.set id _).countP _
    rw [count_set _ _ _ within, content, consistent.counted]
    rfl
  · intro other place known
    have entry := (table other).symm.trans known
    by_cases same : other = co
    · simp [same] at entry
    · rw [if_neg same] at entry
      obtain ⟨kept, old, fits⟩ := consistent.live other place entry
      refine ⟨kept, (present_set _ _ _ _ same).trans old, ?_⟩
      rcases fits with unstarted | ⟨status, thread, ctx, begun⟩
      · exact Or.inl unstarted
      · have apart : thread ≠ fiber := by
          rintro rfl
          rw [executes.started] at begun
          simp only [Option.some.injEq, Fiber.started.injEq] at begun
          exact same begun.2.symm
        exact Or.inr ⟨status, thread, ctx, (List.getElem?_set_ne (Ne.symm apart)).trans begun⟩
  · intro other kept now
    rcases present_cases _ _ _ _ _ _ executes.present now with ⟨-, freed⟩ | ⟨same, old⟩
    · simp at freed
    · obtain ⟨place, known⟩ := consistent.known other kept old
      exact ⟨place, (table other).trans ((if_neg same).trans known)⟩

/-! ## Steps -/

/-- A new table is consistent. There is no coroutine in it yet. -/
theorem opened_consistent : Consistent opened := by
  refine ⟨rfl, by decide, by decide, ?_, by decide, ?_, ?_, Or.inl ⟨rfl, rfl⟩⟩
  · intro id co
    have empty : contentAt (List.replicate defaultCoroutine ⟨none, true⟩) id = none := by
      simp only [contentAt, List.getElem?_replicate]
      by_cases inside : id < defaultCoroutine <;> simp [inside]
    change contentAt (List.replicate defaultCoroutine ⟨none, true⟩) id = some co ↔
      (none : Option Nat) = some id
    simp [empty]
  · rintro co id ⟨⟩
  · rintro co coroutine ⟨⟩

/-- `coroutine_new` in a table with a free slot returns it. The structure of the new coroutine is
the last one. -/
theorem new_performed (watched next : Watched) (garbage : Nat → Option Nat)
    (consistent : Consistent watched) (free : watched.state.sch.nco < watched.state.sch.cap)
    (performed : perform watched (.new garbage) = .ok next) :
    ∃ id, id < watched.state.sch.cap ∧ contentAt watched.state.sch.co id = none ∧
      next = ⟨created watched.state id,
        Function.update watched.returned watched.state.coroutines.length (some id)⟩ := by
  obtain ⟨id, inside, vacant, creates⟩ := new_creates watched garbage consistent free
  simp only [perform, creates, bind, Except.bind] at performed
  exact ⟨id, inside, vacant, (Except.ok.inj performed).symm⟩

/-- A resume enters a coroutine that was ready or suspended, or does nothing. The table itself
does not change. -/
theorem resume_performed (watched next : Watched) (id : Int) (consistent : Consistent watched)
    (performed : perform watched (.resume id) = .ok next) :
    next = watched ∨ ∃ (place co fiber : Nat) (coroutine : Coroutine) (fibers : List Fiber),
      id = place ∧ watched.returned co = some place ∧
      watched.state.coroutines[co]? = some (some coroutine) ∧
      (coroutine.status = .ready ∨ coroutine.status = .suspend) ∧
      fibers[fiber]? = some (.started place co) ∧
      (∀ (other place owner : Nat), watched.state.fibers[other]? =
        some (.started place owner) → fibers[other]? = some (.started place owner)) ∧
      EnteredOn watched.state place co coroutine fiber fibers ∧
      next = ⟨entered watched.state place co fiber fibers, watched.returned⟩ := by
  cases resumed : coroutineResume id watched.state with
  | error stop => simp [perform, resumed, bind, Except.bind] at performed
  | ok state =>
    obtain rfl : next = ⟨state, watched.returned⟩ := by
      simp only [perform, resumed, bind, Except.bind] at performed
      exact (Except.ok.inj performed).symm
    rcases resume_cases watched id state consistent resumed with
      rfl | ⟨place, co, coroutine, rfl, returned, present, idle⟩
    · exact Or.inl rfl
    · obtain ⟨fiber, fibers, enters, started, stays, host⟩ :=
        resume_enters watched place co coroutine consistent returned present idle
      obtain rfl : state = _ := Except.ok.inj (resumed.symm.trans enters)
      exact Or.inr ⟨place, co, fiber, coroutine, fibers, rfl, returned, present, idle, started,
        stays, host, rfl⟩

/-- A yield suspends the coroutine that executes. Main executes behind it. -/
theorem yield_performed (watched next : Watched) (consistent : Consistent watched)
    (performed : perform watched .yield = .ok next) :
    ∃ fiber id co, Executes watched fiber id co ∧
      next = ⟨suspended watched.state co ⟨.running, some fiber⟩, watched.returned⟩ := by
  cases yielded : coroutineYield watched.state with
  | error stop => simp [perform, yielded, bind, Except.bind] at performed
  | ok state =>
    obtain ⟨fiber, id, co, executes, rfl⟩ := yield_suspends watched state consistent yielded
    simp only [perform, yielded, bind, Except.bind] at performed
    exact ⟨fiber, id, co, executes, (Except.ok.inj performed).symm⟩

/-- A return removes the coroutine that executes. Its id is known no more. -/
theorem finish_performed (watched next : Watched) (consistent : Consistent watched)
    (performed : perform watched .finish = .ok next) :
    ∃ fiber id co, Executes watched fiber id co ∧
      next = ⟨finished watched.state id co fiber,
        Function.update watched.returned co none⟩ := by
  cases returned : finish watched.state with
  | error stop => simp [perform, returned, bind, Except.bind] at performed
  | ok state =>
    obtain ⟨fiber, id, co, executes, inFunction, rfl⟩ :=
      finish_frees watched state consistent returned
    simp only [perform, returned, inFunction, bind, Except.bind] at performed
    exact ⟨fiber, id, co, executes, (Except.ok.inj performed).symm⟩

/-- While no coroutine is created in a full table, every action keeps everything consistent.
Proof: each of the four actions has its own state behind it, and each of these is consistent. -/
theorem perform_consistent (watched next : Watched) (action : Action)
    (consistent : Consistent watched)
    (free : ∀ garbage, action = .new garbage → watched.state.sch.nco < watched.state.sch.cap)
    (performed : perform watched action = .ok next) : Consistent next := by
  cases action with
  | new garbage =>
    obtain ⟨id, inside, vacant, rfl⟩ :=
      new_performed watched next garbage consistent (free garbage rfl) performed
    exact created_consistent watched id consistent inside vacant
  | resume id =>
    rcases resume_performed watched next id consistent performed with
      rfl | ⟨place, co, fiber, coroutine, fibers, -, returned, present, -, started, stays, -, rfl⟩
    · exact consistent
    · exact entered_consistent watched place co fiber coroutine fibers consistent returned present
        started stays
  | yield =>
    obtain ⟨fiber, id, co, executes, rfl⟩ := yield_performed watched next consistent performed
    exact suspended_consistent watched fiber id co consistent executes
  | finish =>
    obtain ⟨fiber, id, co, executes, rfl⟩ := finish_performed watched next consistent performed
    exact finished_consistent watched fiber id co consistent executes

end EffiLib.Coroutines
