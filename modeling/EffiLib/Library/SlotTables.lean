import Mathlib

/-!
# Tables of slots

A table of slots holds things by name. A slot that was never used ends a search, a slot whose
thing was taken out may be taken again but ends none. As long as the slots that were never used
are behind all others and no name is held twice, the table is a map from names to slots.
-/

namespace EffiLib.SlotTables

universe u v

/-- What is read off a slot: the name of the thing in it, whether it may be taken, and whether
it was never used. -/
structure Reading (σ : Type u) (κ : Type v) where
  name : σ → Option κ
  blank : σ → Bool
  unused : σ → Bool
  unnamed : ∀ slot, blank slot = true → name slot = none
  fresh : ∀ slot, unused slot = true → blank slot = true

variable {σ : Type u} {κ : Type v} (reading : Reading σ κ) (size : Nat)

/-- The slots that were never used are behind all others, and no name is held twice. Under this
order a search may stop at the first slot never used. -/
structure Orderly (slots : Nat → σ) : Prop where
  behind : ∀ i j, i < j → j < size → reading.unused (slots i) = true →
    reading.unused (slots j) = true
  single : ∀ i j key, i < size → j < size → reading.name (slots i) = some key →
    reading.name (slots j) = some key → i = j

/-- The table holds a map: each name stands for the slot that holds it. A slot that holds no name
stands for nothing. -/
def Represents (slots : Nat → σ) (entries : κ → Option σ) : Prop :=
  ∀ key slot, entries key = some slot ↔
    ∃ i < size, reading.name (slots i) = some key ∧ slots i = slot

/-- How many slots may be taken. A table without one can take no new name. -/
def blanks (slots : Nat → σ) : Nat :=
  ((Finset.range size).filter fun i => reading.blank (slots i) = true).card

section Changes

variable (slots changed : Nat → σ) (place : Nat) (inside : place < size)
  (same : ∀ i < size, i ≠ place → changed i = slots i)

include inside same

omit inside in
/-- A slot behind used ones may be changed to another used one, with a name that the others do
not hold. -/
theorem orderly_changed (orderly : Orderly reading size slots)
    (front : ∀ i < place, reading.unused (slots i) = false)
    (used : reading.unused (changed place) = false)
    (alone : ∀ key, reading.name (changed place) = some key → ∀ i < size, i ≠ place →
      reading.name (slots i) ≠ some key) : Orderly reading size changed := by
  constructor
  · intro i j early late ended
    by_cases here : i = place
    · rw [here, used] at ended
      cases ended
    · rw [same i (by omega) here] at ended
      by_cases there : j = place
      · rw [front i (by omega)] at ended
        cases ended
      · rw [same j late there]
        exact orderly.behind i j early late ended
  · intro i j key first second one two
    by_cases here : i = place
    · by_cases there : j = place
      · rw [here, there]
      · rw [here] at one
        rw [same j second there] at two
        exact absurd two (alone key one j second there)
    · rw [same i first here] at one
      by_cases there : j = place
      · rw [there] at two
        exact absurd one (alone key two i first here)
      · rw [same j second there] at two
        exact orderly.single i j key first second one two

/-- Taking a slot for a new name puts the name into the map. Other names keep their slots, because
the slot taken held none. -/
theorem represents_put [DecidableEq κ] (entries : κ → Option σ) (key : κ)
    (represents : Represents reading size slots entries) (absent : entries key = none)
    (free : reading.name (slots place) = none)
    (named : reading.name (changed place) = some key) :
    Represents reading size changed (Function.update entries key (some (changed place))) := by
  intro other slot
  by_cases isKey : other = key
  · rw [isKey, Function.update_self]
    constructor
    · intro found
      exact ⟨place, inside, named, Option.some.inj found⟩
    · rintro ⟨i, below, holds, rfl⟩
      by_cases here : i = place
      · rw [here]
      · rw [same i below here] at holds
        have present := (represents key (slots i)).mpr ⟨i, below, holds, rfl⟩
        rw [absent] at present
        cases present
  · rw [Function.update_of_ne isKey, represents other slot]
    constructor
    · rintro ⟨i, below, holds, rfl⟩
      have apart : i ≠ place := by
        intro here
        rw [here, free] at holds
        cases holds
      exact ⟨i, below, by rw [same i below apart]; exact holds, same i below apart⟩
    · rintro ⟨i, below, holds, rfl⟩
      have apart : i ≠ place := by
        intro here
        rw [here, named] at holds
        exact isKey (Option.some.inj holds).symm
      rw [same i below apart] at holds ⊢
      exact ⟨i, below, holds, rfl⟩

/-- Taking the thing out of a slot takes its name out of the map. No other slot holds the name,
because the table is orderly. -/
theorem represents_removed [DecidableEq κ] (entries : κ → Option σ) (key : κ)
    (orderly : Orderly reading size slots)
    (represents : Represents reading size slots entries)
    (held : reading.name (slots place) = some key)
    (gone : reading.name (changed place) = none) :
    Represents reading size changed (Function.update entries key none) := by
  intro other slot
  by_cases isKey : other = key
  · rw [isKey, Function.update_self]
    constructor
    · intro found
      cases found
    · rintro ⟨i, below, holds, _⟩
      by_cases here : i = place
      · rw [here, gone] at holds
        cases holds
      · rw [same i below here] at holds
        exact absurd (orderly.single i place key below inside holds held) here
  · rw [Function.update_of_ne isKey, represents other slot]
    constructor
    · rintro ⟨i, below, holds, rfl⟩
      have apart : i ≠ place := by
        intro here
        rw [here, held] at holds
        exact isKey (Option.some.inj holds).symm
      exact ⟨i, below, by rw [same i below apart]; exact holds, same i below apart⟩
    · rintro ⟨i, below, holds, rfl⟩
      have apart : i ≠ place := by
        intro here
        rw [here, gone] at holds
        cases holds
      rw [same i below apart] at holds ⊢
      exact ⟨i, below, holds, rfl⟩

/-- A blank slot that is taken is one less. The rest of the table is counted as before. -/
theorem blanks_taken (free : reading.blank (slots place) = true)
    (taken : reading.blank (changed place) = false) :
    blanks reading size slots = blanks reading size changed + 1 := by
  have split : ((Finset.range size).filter fun i => reading.blank (slots i) = true) =
      insert place ((Finset.range size).filter fun i => reading.blank (changed i) = true) := by
    ext i
    rw [Finset.mem_insert, Finset.mem_filter, Finset.mem_filter, Finset.mem_range]
    by_cases here : i = place
    · simp [here, inside, free]
    · constructor
      · rintro ⟨below, empty⟩
        exact .inr ⟨below, by rw [same i below here]; exact empty⟩
      · rintro (place | ⟨below, empty⟩)
        · exact absurd place here
        · exact ⟨below, by rw [← same i below here]; exact empty⟩
  rw [blanks, blanks, split, Finset.card_insert_of_notMem]
  rw [Finset.mem_filter, taken]
  simp

end Changes

/-- A table without a blank slot has none to take. It is a count over all slots. -/
theorem blanks_none (slots : Nat → σ) :
    blanks reading size slots = 0 ↔ ∀ i < size, reading.blank (slots i) = false := by
  rw [blanks, Finset.card_eq_zero, Finset.filter_eq_empty_iff]
  simp

end EffiLib.SlotTables
