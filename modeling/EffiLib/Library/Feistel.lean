import Mathlib

/-!
# Feistel networks

A round moves the right half to the left and combines the left half with a keyed mix of
the right one. The network can be run backwards whatever the mix is: the halves exchanged
and the keys reversed. A map of the halves that commutes with one round commutes with all
of them.
-/

namespace EffiLib.Feistel

universe u v w x
variable {α : Type u} {κ : Type v}

/-- One round under a key. The mix need not be invertible. -/
def round (combine : α → α → α) (mix : κ → α → α) (halves : α × α) (key : κ) : α × α :=
  (halves.2, combine halves.1 (mix key halves.2))

/-- One round for each key, in order. The halves are not exchanged at the end. -/
def rounds (combine : α → α → α) (mix : κ → α → α) (keys : List κ) (halves : α × α) : α × α :=
  keys.foldl (round combine mix) halves

variable (combine : α → α → α) (mix : κ → α → α)

/-- A round on the exchanged halves takes a round back. The key is the same, and nothing is asked
of the mix. -/
theorem round_back (cancel : ∀ left right, combine (combine left right) right = left)
    (halves : α × α) (key : κ) :
    round combine mix (round combine mix halves key).swap key = halves.swap :=
  Prod.ext rfl (cancel halves.1 (mix key halves.2))

/-- The reversed keys take a network back. Proof: by induction on the keys, the last round being
the first to be taken back. -/
theorem rounds_back (cancel : ∀ left right, combine (combine left right) right = left)
    (keys : List κ) (halves : α × α) :
    rounds combine mix keys.reverse (rounds combine mix keys halves).swap = halves.swap := by
  induction keys generalizing halves with
  | nil => rfl
  | cons key keys inductionHypothesis =>
    have inner : rounds combine mix keys.reverse
        (rounds combine mix keys (round combine mix halves key)).swap =
          (round combine mix halves key).swap := inductionHypothesis (round combine mix halves key)
    calc rounds combine mix (key :: keys).reverse (rounds combine mix (key :: keys) halves).swap
        = round combine mix (rounds combine mix keys.reverse
            (rounds combine mix keys (round combine mix halves key)).swap) key := by
          rw [List.reverse_cons, rounds, List.foldl_append]
          rfl
      _ = halves.swap := by rw [inner, round_back combine mix cancel]

/-- Halves and keys may be mapped before the network or after it, when they may be around
one round. -/
theorem rounds_map {β : Type w} {ι : Type x} (combine' : β → β → β) (mix' : ι → β → β)
    (half : α → β) (subkey : κ → ι)
    (commutes : ∀ left key right, half (combine left (mix key right)) =
      combine' (half left) (mix' (subkey key) (half right)))
    (keys : List κ) (halves : α × α) :
    rounds combine' mix' (keys.map subkey) (halves.map half half) =
      (rounds combine mix keys halves).map half half := by
  induction keys generalizing halves with
  | nil => rfl
  | cons key keys inductionHypothesis =>
    have first : round combine' mix' (halves.map half half) (subkey key) =
        (round combine mix halves key).map half half :=
      Prod.ext rfl (commutes halves.1 key halves.2).symm
    change rounds combine' mix' (keys.map subkey)
      (round combine' mix' (halves.map half half) (subkey key)) = _
    rw [first]
    exact inductionHypothesis (round combine mix halves key)

end EffiLib.Feistel
