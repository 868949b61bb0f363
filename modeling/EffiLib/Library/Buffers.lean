import Mathlib

/-!
# Bounded arrays and faulting runs

An array in memory is the list of its elements; its length is the allocated
size. Stores and copies check their bounds and fault instead of clipping, so a
run that returns has stayed inside every array it touched.
-/

namespace EffiLib.Buffers

universe u
variable {β : Type u}

/-- The ways in which a run leaves the defined behaviour. An unfinished loop is
kept apart from the invalid memory accesses. -/
inductive Fault where
  | nullPointer
  | danglingPointer
  | outOfBounds
  | unfinished
deriving DecidableEq, Repr

/-- A run yields a value or stops at its first fault. A fault ends the run and is never answered
by a default, so a property of returned values speaks about runs without undefined behaviour. -/
abbrev Run (α : Type u) := Except Fault α

/-- Equality of results is decided by comparing faults or values. -/
instance {α : Type u} [DecidableEq α] : DecidableEq (Run α)
  | .error left, .error right => decidable_of_iff (left = right) (by simp)
  | .ok left, .ok right => decidable_of_iff (left = right) (by simp)
  | .error _, .ok _ => isFalse (by simp)
  | .ok _, .error _ => isFalse (by simp)

/-- A run that returned goes on with its value. It is the step of a symbolic execution. -/
@[simp] theorem ok_bind {α γ : Type u} (value : α) (following : α → Run γ) :
    ((Except.ok value : Run α) >>= following) = following value := rfl

/-- A faulting run does not go on. The fault is the result of the whole. -/
@[simp] theorem error_bind {α γ : Type u} (fault : Fault) (following : α → Run γ) :
    ((Except.error fault : Run α) >>= following) = .error fault := rfl

/-- A sequence of two runs returns exactly when both do. It is how a hypothesis about a sequence
is taken apart. -/
theorem bind_ok_iff {α γ : Type u} (run : Run α) (following : α → Run γ) (result : γ) :
    (run >>= following) = .ok result ↔ ∃ value, run = .ok value ∧ following value = .ok result := by
  cases run <;> simp

/-- Read one element inside the array. Outside of it the run faults. -/
def load (array : List β) (position : Nat) : Run β :=
  match array[position]? with
  | none => .error .outOfBounds
  | some element => .ok element

/-- Replace one element inside the array. Outside of it the run faults, and nothing is clipped. -/
def store (array : List β) (position : Nat) (element : β) : Run (List β) :=
  if position < array.length then .ok (array.set position element) else .error .outOfBounds

/-- Copy the first `count` source elements over the target from `offset` on. Both
ranges must lie inside their arrays. -/
def copy (target : List β) (offset : Nat) (source : List β) (count : Nat) : Run (List β) :=
  if offset + count ≤ target.length ∧ count ≤ source.length then
    .ok (target.take offset ++ source.take count ++ target.drop (offset + count))
  else .error .outOfBounds

/-- Reallocate to a given size, keeping what fits. The elements gained have no
particular value in memory; here they read as the filler. -/
def resize (array : List β) (size : Nat) (filler : β) : List β :=
  array.take size ++ List.replicate (size - array.length) filler

/-- A load inside the array returns the element there. It is used where a bound is known. -/
theorem load_inside (array : List β) (position : Nat) (inside : position < array.length) :
    load array position = .ok array[position] := by
  simp [load, List.getElem?_eq_getElem inside]

/-- A store inside the array changes that element alone. The array keeps its length. -/
theorem store_inside (array : List β) (position : Nat) (element : β)
    (inside : position < array.length) :
    store array position element = .ok (array.set position element) := by
  simp [store, inside]

/-- Reading behind a front gives the first element of the rest. The position is the length of the
front. -/
theorem load_next (front rest : List β) (element : β) (position : Nat)
    (behind : front.length = position) :
    load (front ++ element :: rest) position = .ok element := by
  subst behind
  rw [load_inside _ _ (by simp)]
  simp

/-- Writing behind a finished front replaces the next element of the rest. The loops that fill an
array from its beginning do so. -/
theorem store_next (front rest : List β) (old element : β) (position : Nat)
    (behind : front.length = position) :
    store (front ++ old :: rest) position element = .ok (front ++ element :: rest) := by
  subst behind
  rw [store_inside _ _ _ (by simp)]
  simp

/-- Growing an array and copying to its old end appends the copied elements, so
the filler is never seen. -/
theorem grow_copy (array source : List β) (count : Nat) (filler : β)
    (enough : count ≤ source.length) :
    copy (resize array (array.length + count) filler) array.length source count =
      .ok (array ++ source.take count) := by
  have size : (resize array (array.length + count) filler).length = array.length + count := by
    simp [resize]
  have kept : (resize array (array.length + count) filler).take array.length = array := by
    simp [resize]
  have full : (resize array (array.length + count) filler).drop (array.length + count) = [] :=
    List.drop_of_length_le (by omega)
  simp [copy, size, enough, kept, full]

/-- With more room than is copied, the filler stays behind the copied elements. It is the case of
`realloc` to more than is needed. -/
theorem grow_copy_part (array source : List β) (room count : Nat) (filler : β) (fits : count ≤ room)
    (enough : count ≤ source.length) :
    copy (resize array (array.length + room) filler) array.length source count =
      .ok (array ++ source.take count ++ List.replicate (room - count) filler) := by
  have grown : resize array (array.length + room) filler = array ++ List.replicate room filler := by
    simp [resize]
  have rest : (array ++ List.replicate room filler).drop (array.length + count) =
      List.replicate (room - count) filler := by
    rw [List.drop_length_add_append, List.drop_replicate]
  rw [grown, copy, if_pos ⟨by simp [fits], enough⟩, List.take_left, rest]

/-- A copy reads no more of its source than it is told to copy. So a source may be cut to the
count first. -/
theorem copy_taken (target : List β) (offset : Nat) (source : List β) (count : Nat) :
    copy target offset (source.take count) count = copy target offset source count := by
  simp only [copy, List.length_take, List.take_take, Nat.min_self, le_inf_iff, le_refl, true_and]

/-- A copy that would leave the grown array faults. It is the case of a length that has
wrapped. -/
theorem short_copy (array source : List β) (size count : Nat) (filler : β)
    (short : size < array.length + count) :
    copy (resize array size filler) array.length source count = .error .outOfBounds := by
  have bounded : (resize array size filler).length = size := by
    simp only [resize, List.length_append, List.length_take, List.length_replicate]
    omega
  have outside : ¬ array.length + count ≤ size := by omega
  simp [copy, bounded, outside]

/-- Filling a fresh array of exactly the copied size leaves the copied elements. What the array
was filled with is gone. -/
theorem fresh_copy (source : List β) (count : Nat) (filler : β) (enough : count ≤ source.length) :
    copy (List.replicate count filler) 0 source count = .ok (source.take count) := by
  simp [copy, enough]

end EffiLib.Buffers
