import EffiLib.Library.Runs

/-!
# Coroutines on fibers

`coroutine.c` keeps the coroutines in a table of slots and runs each on a fiber of its own.
Which function is called next is up to the caller in the main fiber and to the coroutine
functions, so a run is a sequence of calls, made by the fiber that executes, and of returns
of a coroutine function. A run stops at an `assert` and at an access that is not defined.

Coroutine structures and fibers are numbered in the order in which they are allocated.
-/

namespace EffiLib.Coroutines

/-- The `COROUTINE_` constants. No structure ever has the first, which `coroutine_status` answers
for an empty slot. -/
inductive Status where
  | dead
  | ready
  | running
  | suspend
deriving DecidableEq, Repr

/-- `struct coroutine`: the status, and the fiber in `ctx` once there is one. The function and its
argument do not matter here. -/
structure Coroutine where
  status : Status
  ctx : Option Nat
deriving DecidableEq, Repr

/-- One entry of `S->co`: what it reads as, and whether it was ever written. What `realloc` gained
was not, until something is stored there. -/
structure Slot where
  content : Option Nat
  written : Bool
deriving DecidableEq, Repr

/-- `struct schedule`. `running` is -1 when no coroutine is. -/
structure Schedule where
  nco : Nat
  cap : Nat
  running : Int
  co : List Slot
deriving DecidableEq, Repr

/-- A fiber. One that has started is in the function of its coroutine, with the `id` and
the `C` that `fiberProc` read at the beginning. -/
inductive Fiber where
  | created
  | started (id co : Nat)
  | deleted
deriving DecidableEq, Repr

/-- What ends a run: an `assert`, a pointer that addresses nothing, an index outside the
table, or a return where no coroutine function executes. -/
inductive Stop where
  | assertion
  | badPointer
  | outOfBounds
  | notInCoroutine
deriving DecidableEq, Repr

/-- The schedule, the allocated structures and fibers, and the fiber that executes; the
main fiber has no number. -/
structure State where
  sch : Schedule
  coroutines : List (Option Coroutine)
  fibers : List Fiber
  executing : Option Nat
deriving DecidableEq, Repr

/-! ## Access -/

/-- The content of a slot, if it is one and not `NULL`. Outside of the table there is none. -/
def contentAt (co : List Slot) (id : Nat) : Option Nat := (co[id]?).bind Slot.content

/-- Read `S->co[id]`. A negative index is outside as well. -/
def slotAt (sch : Schedule) (id : Int) : Except Stop (Option Nat) :=
  if 0 ≤ id ∧ id < sch.co.length then .ok (contentAt sch.co id.toNat) else .error .outOfBounds

/-- Follow a pointer to a coroutine. A structure that was freed is not there. -/
def deref (state : State) (co : Nat) : Except Stop Coroutine :=
  match state.coroutines[co]? with
  | some (some coroutine) => .ok coroutine
  | _ => .error .badPointer

/-- Read a slot and follow the pointer in it. An empty slot gives a null pointer, which is not
followed. -/
def coroutineAt (state : State) (id : Int) : Except Stop (Nat × Coroutine) := do
  let content ← slotAt state.sch id
  match content with
  | none => .error .badPointer
  | some co => do
    let coroutine ← deref state co
    .ok (co, coroutine)

/-- Write a coroutine. Its number stays. -/
def State.put (state : State) (co : Nat) (coroutine : Coroutine) : State :=
  { state with coroutines := state.coroutines.set co (some coroutine) }

/-! ## Functions -/

/-- `DEFAULT_COROUTINE`. It is the capacity of a new schedule. -/
def defaultCoroutine : Nat := 16

/-- `coroutine_open`. `memset` has written every slot. -/
def coroutineOpen : State :=
  { sch := ⟨0, defaultCoroutine, -1, List.replicate defaultCoroutine ⟨none, true⟩⟩
    coroutines := []
    fibers := []
    executing := none }

/-- `realloc` to a larger table. Memory gained reads as `garbage`. It was never written. -/
def realloc (co : List Slot) (size : Nat) (garbage : Nat → Option Nat) : List Slot :=
  co.take size ++
    (List.range (size - co.length)).map (fun i => ⟨garbage (co.length + i), false⟩)

/-- `memset` of some slots to `NULL`. They count as written from then on. -/
def clear (co : List Slot) (start count : Nat) : List Slot :=
  co.take start ++ List.replicate count ⟨none, true⟩ ++ co.drop (start + count)

/-- The slots in the order in which `coroutine_new` looks at them. It begins at `nco` and goes
round the table once. -/
def probe (sch : Schedule) : List Nat :=
  (List.range sch.cap).map fun i => (i + sch.nco) % sch.cap

/-- `coroutine_new`: the state and the id it returns. The new coroutine has the next free
number. -/
def coroutineNew (garbage : Nat → Option Nat) (state : State) : Except Stop (State × Nat) :=
  let sch := state.sch
  let co := state.coroutines.length
  let coroutines := state.coroutines ++ [some ⟨.ready, none⟩]
  if sch.cap ≤ sch.nco then
    let id := sch.cap
    let cap := sch.cap * 2
    let slots := clear (realloc sch.co (cap * 2) garbage) cap cap
    let slots := slots.set cap ⟨some co, true⟩
    .ok ({ state with
      sch := { sch with nco := sch.nco + 1, cap := cap * 2, co := slots }
      coroutines := coroutines }, id)
  else
    match (probe sch).find? (fun id => contentAt sch.co id = none) with
    | some id =>
      .ok ({ state with
        sch := { sch with nco := sch.nco + 1, co := sch.co.set id ⟨some co, true⟩ }
        coroutines := coroutines }, id)
    | none => .error .assertion

/-- `SwitchToFiber`. A fiber that was only created begins `fiberProc`: it reads `S->running`
and its coroutine, and calls the function. -/
def switchToFiber (state : State) (fiber : Nat) : Except Stop State :=
  match state.fibers[fiber]? with
  | some (.started _ _) => .ok { state with executing := some fiber }
  | some .created => do
    let (co, _) ← coroutineAt state state.sch.running
    .ok { state with
      fibers := state.fibers.set fiber (.started state.sch.running.toNat co)
      executing := some fiber }
  | _ => .error .badPointer

/-- The part of `coroutine_resume` that both statuses share. The status is set before the
switch. -/
def enter (state : State) (id : Int) (co ctx : Nat) : Except Stop State :=
  let state := { state with sch := { state.sch with running := id } }
  switchToFiber (state.put co ⟨.running, some ctx⟩) ctx

/-- `coroutine_resume`. An empty slot is no error; a status that is neither ready nor suspended
is. -/
def coroutineResume (id : Int) (state : State) : Except Stop State := do
  let content ← slotAt state.sch id
  match content with
  | none => .ok state
  | some co => do
    let coroutine ← deref state co
    match coroutine.status, coroutine.ctx with
    | .ready, _ =>
      enter { state with fibers := state.fibers ++ [.created] } id co state.fibers.length
    | .suspend, some ctx => enter state id co ctx
    | .suspend, none => .error .badPointer
    | _, _ => .error .assertion

/-- `coroutine_yield`. The slot `running` is read without a look at the fiber that executes. -/
def coroutineYield (state : State) : Except Stop State :=
  if state.sch.running < 0 then .error .assertion
  else do
    let (co, coroutine) ← coroutineAt state state.sch.running
    let state := state.put co { coroutine with status := .suspend }
    .ok { state with sch := { state.sch with running := -1 }, executing := none }

/-- The coroutine in whose function the executing fiber is, with its `id`. It is known to the
system, not to the schedule. -/
def current (state : State) : Option (Nat × Nat) :=
  match state.executing.bind (state.fibers[·]?) with
  | some (.started id co) => some (id, co)
  | _ => none

/-- The rest of `fiberProc`, once the coroutine function has returned. Here `DeleteFiber` is taken
to return, and the fiber is gone behind it. -/
def finish (state : State) : Except Stop State :=
  match current state with
  | none => .error .notInCoroutine
  | some (id, co) => do
    let coroutine ← deref state co
    let _ ← slotAt state.sch id
    match coroutine.ctx with
    | none => .error .badPointer
    | some ctx =>
      .ok { sch := { state.sch with
              nco := state.sch.nco - 1
              running := -1
              co := state.sch.co.set id ⟨none, true⟩ }
            coroutines := state.coroutines.set co none
            fibers := state.fibers.set ctx .deleted
            executing := none }

/-! ## Runs -/

/-- What the executing fiber does next. `new` carries what the memory of a grown table happens to
hold. -/
inductive Action where
  | new (garbage : Nat → Option Nat)
  | resume (id : Int)
  | yield
  | finish

/-- A state beside the ids that `coroutine_new` returned for the coroutines whose functions have
not returned yet. The ids are not part of the program; they say what a caller was told. -/
structure Watched where
  state : State
  returned : Nat → Option Nat

/-- One action, with the ids kept up to date. The ids change where a coroutine is created and
where its function returns. -/
def perform (watched : Watched) : Action → Except Stop Watched
  | .new garbage => do
    let (state, id) ← coroutineNew garbage watched.state
    .ok ⟨state, Function.update watched.returned watched.state.coroutines.length (some id)⟩
  | .resume id => do
    let state ← coroutineResume id watched.state
    .ok ⟨state, watched.returned⟩
  | .yield => do
    let state ← coroutineYield watched.state
    .ok ⟨state, watched.returned⟩
  | .finish => do
    let state ← finish watched.state
    match current watched.state with
    | none => .error .notInCoroutine
    | some (_, co) => .ok ⟨state, Function.update watched.returned co none⟩

/-- The beginning of every run. No coroutine has been created. -/
def opened : Watched := ⟨coroutineOpen, fun _ => none⟩

end EffiLib.Coroutines
