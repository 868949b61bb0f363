import EffiLib.Library.Buffers

/-!
# Transducers and streams

A transducer takes one element after another and gives out elements as it goes. What it gives
out does not depend on the pieces in which its input arrives. A loop that reads a stream in
pieces of one size therefore gives out what the transducer gives out over the whole stream,
when its body does so over every piece.
-/

namespace EffiLib.Transducers

open Buffers

universe u v w
variable {σ : Type u} {α : Type v} {β : Type w} (step : σ → α → σ × List β)

/-- Take all elements: the state behind them and everything that is given out. The state carries
what an output has to wait for. -/
def drive : σ → List α → σ × List β
  | state, [] => (state, [])
  | state, element :: rest =>
    ((drive (step state element).1 rest).1,
      (step state element).2 ++ (drive (step state element).1 rest).2)

/-- No input leaves the state and puts nothing out. -/
@[simp] theorem drive_nil (state : σ) : drive step state [] = (state, []) := rfl

/-- The input may be cut anywhere. What is given out is the same. Proof: by induction on the
front. -/
theorem drive_append (state : σ) (front back : List α) :
    drive step state (front ++ back) =
      ((drive step (drive step state front).1 back).1,
        (drive step state front).2 ++ (drive step (drive step state front).1 back).2) := by
  induction front generalizing state with
  | nil => rfl
  | cons element rest inductionHypothesis =>
    rw [List.cons_append, drive, inductionHypothesis, drive, List.append_assoc]

/-- What each step keeps, a run keeps. Proof: by induction on the input. -/
theorem drive_keeps (holds : σ → Prop) (keeps : ∀ state element, holds state →
    holds (step state element).1) (state : σ) (input : List α) (start : holds state) :
    holds (drive step state input).1 := by
  induction input generalizing state with
  | nil => exact start
  | cons element rest inductionHypothesis =>
    exact inductionHypothesis _ (keeps state element start)

/-- A transducer of values takes the elements that have one and skips the others. A decoder skips
characters outside of its alphabet in this way. -/
def skipping {γ : Type u} (value : γ → Option α) (state : σ) (element : γ) : σ × List β :=
  match value element with
  | none => (state, [])
  | some found => step state found

/-- Skipping gives out what the values alone give out. Proof: by induction on the input. -/
theorem drive_skipping {γ : Type u} (value : γ → Option α) (state : σ) (input : List γ) :
    drive (skipping step value) state input = drive step state (input.filterMap value) := by
  induction input generalizing state with
  | nil => rfl
  | cons element rest inductionHypothesis =>
    rw [drive, skipping, List.filterMap_cons]
    cases value element with
    | none => exact inductionHypothesis state
    | some found =>
      dsimp only
      rw [inductionHypothesis, drive]

/-! ## A stream read in pieces -/

/-- The loop over a stream that is read in pieces of the given size, each given to the body.
It goes on while a piece is whole and not empty. -/
def pump {σ α β : Type} (size : Nat) (body : σ → List α → Run (σ × List β)) :
    Nat → σ → List α → List β → Run (σ × List β)
  | 0, _, _, _ => .error .unfinished
  | fuel + 1, state, istream, ostream => do
    let (state, given) ← body state (istream.take size)
    let good := decide (size ≤ istream.length)
    if good && decide (0 < (istream.take size).length) then
      pump size body fuel state (istream.drop size) (ostream ++ given)
    else .ok (state, ostream ++ given)

section Pump

variable {σ τ α β : Type} {size : Nat} (body : σ → List α → Run (σ × List β))
  (step : τ → α → τ × List β) (tracks : σ → τ → Prop) (taken : α → Prop)

/-- The body does to every piece of such elements what the transducer does. The pieces are no
longer than the loop takes at once. -/
def Carries (size : Nat) : Prop :=
  ∀ state abstract piece, tracks state abstract → piece.length ≤ size → (∀ x ∈ piece, taken x) →
    ∃ after, body state piece = .ok (after, (drive step abstract piece).2) ∧
      tracks after (drive step abstract piece).1

/-- A loop whose body carries a transducer gives out what the transducer gives out over the
whole stream. -/
theorem pump_drives (carries : Carries body step tracks taken size) (positive : 0 < size)
    (fuel : Nat) (state : σ) (abstract : τ) (istream : List α) (ostream : List β)
    (tracked : tracks state abstract) (all : ∀ x ∈ istream, taken x)
    (enough : istream.length < fuel) :
    ∃ after, pump size body fuel state istream ostream =
        .ok (after, ostream ++ (drive step abstract istream).2) ∧
      tracks after (drive step abstract istream).1 := by
  induction fuel generalizing state abstract istream ostream with
  | zero => exact absurd enough (Nat.not_lt_zero _)
  | succ fuel inductionHypothesis =>
    obtain ⟨after, done, follows⟩ := carries state abstract (istream.take size) tracked
      (List.length_take_le _ _) fun x member => all x (List.mem_of_mem_take member)
    rw [pump, done, ok_bind]
    dsimp only
    by_cases whole : size ≤ istream.length
    · have filled : 0 < (istream.take size).length := by
        rw [List.length_take, Nat.min_eq_left whole]
        exact positive
      rw [if_pos (by rw [decide_eq_true whole, decide_eq_true filled]; rfl)]
      have shorter : (istream.drop size).length < fuel := by
        rw [List.length_drop]
        omega
      obtain ⟨final, ran, ends⟩ := inductionHypothesis after _ (istream.drop size)
        (ostream ++ (drive step abstract (istream.take size)).2) follows
        (fun x member => all x (List.mem_of_mem_drop member)) shorter
      have joined := drive_append step abstract (istream.take size) (istream.drop size)
      rw [List.take_append_drop] at joined
      refine ⟨final, ?_, by rw [joined]; exact ends⟩
      rw [ran, joined, List.append_assoc]
    · rw [if_neg (by simp [whole])]
      have short : istream.take size = istream := List.take_of_length_le (by omega)
      rw [short] at follows ⊢
      exact ⟨after, rfl, follows⟩

/-- A loop whose body stops at every piece with another element stops at every stream with one.
Proof: the pieces in front of that element are carried, and fuel is left because each piece takes
input. -/
theorem pump_stops (carries : Carries body step tracks taken size) (positive : 0 < size)
    (fault : Fault) (stops : ∀ state abstract piece, tracks state abstract →
      piece.length ≤ size → (¬ ∀ x ∈ piece, taken x) → body state piece = .error fault)
    (fuel : Nat) (state : σ) (abstract : τ) (istream : List α) (ostream : List β)
    (tracked : tracks state abstract) (another : ¬ ∀ x ∈ istream, taken x)
    (enough : istream.length < fuel) :
    pump size body fuel state istream ostream = .error fault := by
  induction fuel generalizing state abstract istream ostream with
  | zero => exact absurd enough (Nat.not_lt_zero _)
  | succ fuel inductionHypothesis =>
    rw [pump]
    by_cases front : ∀ x ∈ istream.take size, taken x
    · obtain ⟨after, done, follows⟩ := carries state abstract (istream.take size) tracked
        (List.length_take_le _ _) front
      have behind : ¬ ∀ x ∈ istream.drop size, taken x := by
        intro back
        apply another
        intro x member
        rw [← List.take_append_drop size istream, List.mem_append] at member
        exact member.elim (front x) (back x)
      have whole : size ≤ istream.length := by
        by_contra short
        apply behind
        rw [List.drop_of_length_le (by omega)]
        exact fun x member => absurd member List.not_mem_nil
      have filled : 0 < (istream.take size).length := by
        rw [List.length_take, Nat.min_eq_left whole]
        exact positive
      have shorter : (istream.drop size).length < fuel := by
        rw [List.length_drop]
        omega
      rw [done, ok_bind]
      dsimp only
      rw [if_pos (by rw [decide_eq_true whole, decide_eq_true filled]; rfl)]
      exact inductionHypothesis after _ _ _ follows behind shorter
    · rw [stops state abstract _ tracked (List.length_take_le _ _) front, error_bind]

end Pump

end EffiLib.Transducers
