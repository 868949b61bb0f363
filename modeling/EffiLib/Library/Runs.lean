import Mathlib

/-!
# Runs of a step function

A run applies a step function to one action after another and stops at the first action
that cannot be taken. When an invariant is kept by the allowed steps and every other step
breaks a property at once, a run has the property throughout exactly when it takes allowed
steps only.
-/

namespace EffiLib.Runs

universe u v w
variable {σ : Type u} {α : Type v} {ε : Type w} (step : σ → α → Except ε σ)

/-- Take the actions in order. The first action that fails ends the run with its error. -/
def run : σ → List α → Except ε σ
  | state, [] => .ok state
  | state, action :: rest =>
    match step state action with
    | .error failed => .error failed
    | .ok next => run next rest

/-- The states that a run passes through, its start and its end among them. A run that stops early
visits what it reached before. -/
inductive Visits : σ → List α → σ → Prop where
  | here (state : σ) (actions : List α) : Visits state actions state
  | later (state next : σ) (action : α) (rest : List α) (visited : σ)
      (taken : step state action = .ok next) (visits : Visits next rest visited) :
      Visits state (action :: rest) visited

/-- The actions that a run takes, each with the state in front of it. The last of them may be the
one that fails. -/
inductive Takes : σ → List α → σ → α → Prop where
  | first (state : σ) (action : α) (rest : List α) : Takes state (action :: rest) state action
  | later (state next : σ) (action : α) (rest : List α) (before : σ) (following : α)
      (taken : step state action = .ok next) (takes : Takes next rest before following) :
      Takes state (action :: rest) before following

/-- A run of one more action takes it first. The rest is run from the state behind it. -/
theorem run_cons_iff (state : σ) (action : α) (rest : List α) (final : σ) :
    run step state (action :: rest) = .ok final ↔
      ∃ next, step state action = .ok next ∧ run step next rest = .ok final := by
  rw [run]
  cases step state action <;> simp

/-- A property of every visited state is one of the start and of the states visited after the
first action. -/
theorem visits_cons_iff (state next : σ) (action : α) (rest : List α) (property : σ → Prop)
    (taken : step state action = .ok next) :
    (∀ visited, Visits step state (action :: rest) visited → property visited) ↔
      property state ∧ ∀ visited, Visits step next rest visited → property visited := by
  constructor
  · intro all
    exact ⟨all state (.here _ _), fun visited visits => all visited (.later _ _ _ _ _ taken visits)⟩
  · rintro ⟨start, after⟩ visited visits
    cases visits with
    | here => exact start
    | later _ other _ _ _ takes visits =>
      rw [taken] at takes
      exact after visited (Except.ok.inj takes ▸ visits)

/-- A property of every taken action is one of the first and of those taken after it. Runs are
thereby taken apart at their first action. -/
theorem takes_cons_iff (state next : σ) (action : α) (rest : List α) (property : σ → α → Prop)
    (taken : step state action = .ok next) :
    (∀ before following, Takes step state (action :: rest) before following →
        property before following) ↔
      property state action ∧ ∀ before following, Takes step next rest before following →
        property before following := by
  constructor
  · intro all
    exact ⟨all state action (.first _ _ _), fun before following takes =>
      all before following (.later _ _ _ _ _ _ taken takes)⟩
  · rintro ⟨start, after⟩ before following takes
    cases takes with
    | first => exact start
    | later _ other _ _ _ _ moves takes =>
      rw [taken] at moves
      exact after before following (Except.ok.inj moves ▸ takes)

/-- An action that a run takes is one of its actions. Proof: by induction on the actions. -/
theorem takes_member (state before : σ) (actions : List α) (following : α)
    (takes : Takes step state actions before following) : following ∈ actions := by
  induction takes with
  | first => exact List.mem_cons_self
  | later _ _ _ _ _ _ _ _ inductionHypothesis => exact List.mem_cons_of_mem _ inductionHypothesis

/-- A kind of action that occurs only at the front is taken at the start. Later actions are of
another kind. -/
theorem takes_first (kind : α → Prop) (state before : σ) (action following : α) (rest : List α)
    (others : ∀ other ∈ rest, ¬ kind other) (same : kind following)
    (takes : Takes step state (action :: rest) before following) : before = state := by
  cases takes with
  | first => rfl
  | later _ _ _ _ _ _ _ takes => exact absurd same (others _ (takes_member step _ _ _ _ takes))

/-- What holds at the start and is kept by every lawful step holds in every visited state. The law
is asked of the steps that the run takes and of no others. -/
theorem visits_keeps (invariant : σ → Prop) (lawful : σ → α → Prop)
    (keeps : ∀ state action next, invariant state → lawful state action →
      step state action = .ok next → invariant next)
    (start visited : σ) (actions : List α) (begins : invariant start)
    (laws : ∀ state action, Takes step start actions state action → lawful state action)
    (visits : Visits step start actions visited) : invariant visited := by
  induction visits with
  | here => exact begins
  | later state next action rest visited taken _ inductionHypothesis =>
    have lawful := laws state action (.first _ _ _)
    exact inductionHypothesis (keeps state action next begins lawful taken)
      fun before following takes => laws before following (.later _ _ _ _ _ _ taken takes)

/-- The property holds throughout a run exactly when the run takes allowed steps only. Of the
steps at all possible, only lawful ones are considered. -/
theorem run_exactly (invariant property : σ → Prop) (lawful allowed : σ → α → Prop)
    (good : ∀ state, invariant state → property state)
    (keeps : ∀ state action next, invariant state → lawful state action → allowed state action →
      step state action = .ok next → invariant next)
    (breaks : ∀ state action next, invariant state → lawful state action →
      ¬ allowed state action → step state action = .ok next → ¬ property next)
    (start final : σ) (actions : List α) (begins : invariant start)
    (completed : run step start actions = .ok final)
    (laws : ∀ state action, Takes step start actions state action → lawful state action) :
    (∀ state, Visits step start actions state → property state) ↔
      ∀ state action, Takes step start actions state action → allowed state action := by
  induction actions generalizing start with
  | nil =>
    constructor
    · rintro - state action ⟨⟩
    · rintro - state ⟨⟩
      exact good start begins
  | cons action rest inductionHypothesis =>
    obtain ⟨next, taken, completes⟩ := (run_cons_iff step start action rest final).mp completed
    obtain ⟨lawfulFirst, lawfulRest⟩ := (takes_cons_iff step start next action rest _ taken).mp laws
    rw [visits_cons_iff step start next action rest _ taken,
      takes_cons_iff step start next action rest _ taken]
    by_cases allows : allowed start action
    · have kept := keeps start action next begins lawfulFirst allows taken
      rw [inductionHypothesis next kept completes lawfulRest]
      simp only [good start begins, allows, true_and]
    · have broken := breaks start action next begins lawfulFirst allows taken
      constructor
      · rintro ⟨-, after⟩
        exact absurd (after next (.here _ _)) broken
      · rintro ⟨first, -⟩
        exact absurd first allows

/-! ## Steps that are always possible -/

section Total

variable (move : σ → α → σ)

/-- The property holds of every action of a run, taken in the state in front of it. The step is a
total function here, so that every run goes to its end. -/
def Throughout (property : σ → α → Prop) : σ → List α → Prop
  | _, [] => True
  | state, action :: rest => property state action ∧ Throughout property (move state action) rest

/-- Where the invariant makes the property and the condition the same, and the property keeps
the invariant, the one holds throughout a run exactly if the other does. -/
theorem throughout_exactly (invariant : σ → Prop) (property allowed : σ → α → Prop)
    (exactly : ∀ state action, invariant state → (property state action ↔ allowed state action))
    (keeps : ∀ state action, invariant state → property state action →
      invariant (move state action))
    (start : σ) (actions : List α) (begins : invariant start) :
    Throughout move property start actions ↔ Throughout move allowed start actions := by
  induction actions generalizing start with
  | nil => rfl
  | cons action rest inductionHypothesis =>
    rw [Throughout, Throughout, ← exactly start action begins]
    exact and_congr_right fun holds => inductionHypothesis _ (keeps start action begins holds)

end Total

end EffiLib.Runs
