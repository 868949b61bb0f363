import EffiLib.Library.CStrings

/-!
# A process and the pipe it writes to

`ExecCreateProcess` gives a child the write end of a pipe, waits until the child has exited,
closes its own write end, and only then reads the pipe until that fails. The pipe holds a
bounded number of bytes, so a child that writes more than these blocks, and so does the wait
for its exit.
-/

namespace EffiLib.Exec

open CStrings

/-- Bytes and machine words of the source. -/
abbrev u8 := UInt8

/-- A `DWORD`. Exit codes are such words. -/
abbrev u32 := UInt32

/-- Where `ExecCreateProcess` is after `CreateProcess` has succeeded: in
`WaitForSingleObject`, with the exit code in front of the `CloseHandle` calls, in the
reading loop with `*result`, or back at its caller. -/
inductive Parent where
  | waiting
  | closing (exitCode : u32)
  | reading (exitCode : u32) (result : List u8)
  | returned (exitCode : u32) (result : List u8)
deriving DecidableEq, Repr

/-- Both processes and the pipe. A child that has not exited has bytes left to write;
`writeEnd` tells whether the parent's own write end is open. -/
structure System where
  child : Option (List u8)
  pipe : List u8
  writeEnd : Bool
  parent : Parent
deriving DecidableEq, Repr

/-- The bytes asked for by one `ReadFile`. One byte of the buffer is left for a zero. -/
def readSize : Nat := 4095

/-- What either process can do next. A write blocks while the pipe is full; a read blocks
while it is empty and a write end is open, and fails when it is empty and none is. -/
inductive Step (capacity : Nat) (exitCode : u32) (system : System) : System → Prop where
  | write (byte : u8) (rest : List u8) (pending : system.child = some (byte :: rest))
      (room : system.pipe.length < capacity) :
      Step capacity exitCode system
        { system with child := some rest, pipe := system.pipe ++ [byte] }
  | exit (written : system.child = some []) :
      Step capacity exitCode system { system with child := none }
  | wait (waiting : system.parent = .waiting) (exited : system.child = none) :
      Step capacity exitCode system { system with parent := .closing exitCode }
  | close (code : u32) (closing : system.parent = .closing code) :
      Step capacity exitCode system { system with writeEnd := false, parent := .reading code [] }
  | read (code : u32) (result : List u8) (count : Nat)
      (reading : system.parent = .reading code result) (moves : 0 < count)
      (asked : count ≤ readSize) (present : count ≤ system.pipe.length) :
      Step capacity exitCode system { system with
        pipe := system.pipe.drop count
        parent := .reading code (result ++ contents (system.pipe.take count)) }
  | fail (code : u32) (result : List u8) (reading : system.parent = .reading code result)
      (empty : system.pipe = []) (closed : system.writeEnd = false)
      (exited : system.child = none) :
      Step capacity exitCode system { system with parent := .returned code result }

/-- The child has been created and will write this output. The parent has begun to wait for it. -/
def created (output : List u8) : System := ⟨some output, [], true, .waiting⟩

/-- The systems that some interleaving reaches. A write moves some bytes, and a read takes
some. -/
def Reachable (capacity : Nat) (exitCode : u32) (output : List u8) : System → Prop :=
  Relation.ReflTransGen (Step capacity exitCode) (created output)

/-- `ExecCreateProcess` has not returned and neither side can step. A parent that has returned is
not waited for. -/
def Deadlocked (capacity : Nat) (exitCode : u32) (system : System) : Prop :=
  (∀ code result, system.parent ≠ .returned code result) ∧
  ∀ next, ¬ Step capacity exitCode system next

/-! ## Outputs that fit -/

/-- What holds while the output fits into the pipe: what the child has left fits behind what
is in the pipe, and the parent leaves its wait after the child's exit and reads after its own
end is closed. -/
structure Flowing (capacity : Nat) (system : System) : Prop where
  fits : ∀ rest, system.child = some rest → system.pipe.length + rest.length ≤ capacity
  waits : system.child ≠ none → system.parent = .waiting
  closed : ∀ code result, system.parent = .reading code result → system.writeEnd = false

/-- A step keeps the output flowing. What is in the pipe and what is still to be written fit into
it together. -/
theorem step_flowing (capacity : Nat) (exitCode : u32) (system next : System)
    (flowing : Flowing capacity system) (step : Step capacity exitCode system next) :
    Flowing capacity next := by
  cases step with
  | write byte rest pending room =>
    have waiting := flowing.waits (by simp [pending])
    refine ⟨?_, fun _ => waiting, ?_⟩
    · intro left same
      have fitted := flowing.fits _ pending
      obtain rfl := Option.some.inj same
      simp only [List.length_cons, List.length_append, List.length_nil] at fitted ⊢
      omega
    · intro code result reading
      exact flowing.closed code result reading
  | exit written =>
    exact ⟨by simp, by simp, flowing.closed⟩
  | wait waiting exited =>
    exact ⟨by simp [exited], by simp [exited], by simp⟩
  | close code closing =>
    have exited : system.child = none := by
      by_contra alive
      simp [flowing.waits alive] at closing
    exact ⟨by simp [exited], by simp [exited], by simp⟩
  | read code result count reading moves asked present =>
    have exited : system.child = none := by
      by_contra alive
      simp [flowing.waits alive] at reading
    exact ⟨by simp [exited], by simp [exited], fun _ _ _ => flowing.closed code result reading⟩
  | fail code result reading empty closed exited =>
    exact ⟨by simp [exited], by simp [exited], by simp⟩

/-- While the output flows, one side can step until the parent has returned. Proof: the child can
write the rest at once or has exited, and behind its exit the parent goes on. -/
theorem flowing_steps (capacity : Nat) (exitCode : u32) (system : System)
    (flowing : Flowing capacity system) : ¬ Deadlocked capacity exitCode system := by
  rintro ⟨busy, stuck⟩
  cases child : system.child with
  | some rest =>
    cases rest with
    | nil => exact stuck _ (.exit child)
    | cons byte rest =>
      have fitted := flowing.fits _ child
      rw [List.length_cons] at fitted
      exact stuck _ (.write byte rest child (by omega))
  | none =>
    cases parent : system.parent with
    | waiting => exact stuck _ (.wait parent child)
    | closing code => exact stuck _ (.close code parent)
    | returned code result => exact busy code result parent
    | reading code result =>
      cases pipe : system.pipe with
      | nil => exact stuck _ (.fail code result parent pipe (flowing.closed code result parent)
        child)
      | cons byte rest =>
        exact stuck _ (.read code result 1 parent (by decide) (by decide) (by simp [pipe]))

/-! ## Outputs that do not fit -/

/-- The child fills the pipe while the parent waits. Proof: by induction on the number of
bytes. -/
theorem fills (capacity : Nat) (exitCode : u32) (output : List u8) (count : Nat)
    (inside : count ≤ output.length) (room : count ≤ capacity) :
    Reachable capacity exitCode output
      ⟨some (output.drop count), output.take count, true, .waiting⟩ := by
  induction count with
  | zero => exact .refl
  | succ count inductionHypothesis =>
    have before := inductionHypothesis (by omega) (by omega)
    have pending : output.drop count = output[count] :: output.drop (count + 1) :=
      List.drop_eq_getElem_cons inside
    have filled : output.take (count + 1) = output.take count ++ [output[count]] :=
      List.take_succ_eq_append_getElem inside
    have step := @Step.write capacity exitCode
      ⟨some (output.drop count), output.take count, true, .waiting⟩ output[count]
      (output.drop (count + 1)) (by rw [pending]) (by simp only [List.length_take]; omega)
    rw [filled]
    exact before.tail step

/-- A full pipe with output left blocks the child, and the child blocks the parent. Neither of
them has a step any more. -/
theorem full_pipe_deadlocked (capacity : Nat) (exitCode : u32) (byte : u8) (rest pipe : List u8)
    (full : capacity ≤ pipe.length) :
    Deadlocked capacity exitCode ⟨some (byte :: rest), pipe, true, .waiting⟩ := by
  refine ⟨by simp, ?_⟩
  intro next step
  cases step with
  | write _ _ _ room => exact absurd room (Nat.not_lt_of_le full)
  | exit written => simp at written
  | wait _ exited => simp at exited
  | close code closing => simp at closing
  | read code result count reading => simp at reading
  | fail code result reading => simp at reading

/-- No interleaving deadlocks exactly when the whole output fits into the pipe. Proof: an output
that does not fit fills the pipe while the parent waits, and then neither side can step. -/
theorem deadlock_free_exactly (capacity : Nat) (exitCode : u32) (output : List u8) :
    (∀ system, Reachable capacity exitCode output system →
        ¬ Deadlocked capacity exitCode system) ↔ output.length ≤ capacity := by
  constructor
  · intro free
    by_contra long
    have inside : capacity < output.length := Nat.lt_of_not_le long
    have reached := fills capacity exitCode output capacity (Nat.le_of_lt inside) (Nat.le_refl _)
    have pending : output.drop capacity = output[capacity] :: output.drop (capacity + 1) :=
      List.drop_eq_getElem_cons inside
    rw [pending] at reached
    exact free _ reached (full_pipe_deadlocked capacity exitCode _ _ _
      (by rw [List.length_take]; omega))
  · intro fits system reached
    apply flowing_steps
    induction reached with
    | refl =>
      refine ⟨?_, by simp [created], by simp [created]⟩
      rintro rest same
      obtain rfl := Option.some.inj same
      simpa [created] using fits
    | tail _ step inductionHypothesis =>
      exact step_flowing capacity exitCode _ _ inductionHypothesis step

/-- Two bytes of output into a pipe for one. The child waits for room and the parent for the
child. -/
theorem second_byte_deadlocks :
    ∃ system, Reachable 1 0 [0x61, 0x62] system ∧ Deadlocked 1 0 system := by
  refine ⟨⟨some [0x62], [0x61], true, .waiting⟩, ?_, ?_⟩
  · exact fills 1 0 [0x61, 0x62] 1 (by decide) (by decide)
  · exact full_pipe_deadlocked 1 0 0x62 [] [0x61] (by decide)

end EffiLib.Exec
