import Mathlib

/-!
# Sectors of a flat store

A flat store of elements is read and overwritten in whole sectors of one size. Behind a
write every sector inside it is the one that was written, and every other is as before.
-/

namespace EffiLib.Sectors

universe u
variable {β : Type u} (size : Nat)

/-- The elements of one sector. Behind the store it is shorter or empty. -/
def sector (elements : List β) (number : Nat) : List β := (elements.drop (size * number)).take size

/-- The elements with others put over them from an offset on. Their number stays as long as the
others end inside. -/
def overwrite (elements : List β) (offset : Nat) (source : List β) : List β :=
  elements.take offset ++ source ++ elements.drop (offset + source.length)

/-- The sectors behind a write of `count` sectors from `first` on. The source is cut into sectors
in order. -/
def written (sectors : Nat → List β) (first count : Nat) (source : List β) : Nat → List β :=
  fun number =>
    if first ≤ number ∧ number < first + count then sector size source (number - first)
    else sectors number

/-- A sector of a window is a sector of the store. So a transfer of several sectors is one of
each. -/
theorem sector_window (elements : List β) (first count number : Nat) (inside : number < count) :
    sector size ((elements.drop (size * first)).take (size * count)) number =
      sector size elements (first + number) := by
  have room : size * number + size ≤ size * count := by
    rw [← Nat.mul_succ]
    exact Nat.mul_le_mul_left size inside
  rw [sector, sector, List.drop_take, List.drop_drop, List.take_take, Nat.mul_add,
    Nat.min_eq_left (Nat.le_sub_of_add_le' room)]

/-- A sector in front of a bound does not depend on what is behind it. The bound is counted in
sectors. -/
theorem sector_take (elements : List β) (total number : Nat) (inside : number < total) :
    sector size (elements.take (size * total)) number = sector size elements number := by
  have window := sector_window size elements 0 total number inside
  rwa [Nat.mul_zero, List.drop_zero, Nat.zero_add] at window

/-- Overwriting inside a list keeps its length. The source replaces as many elements as it has. -/
theorem overwrite_length (elements source : List β) (offset : Nat)
    (inside : offset + source.length ≤ elements.length) :
    (overwrite elements offset source).length = elements.length := by
  rw [overwrite, List.length_append, List.length_append, List.length_take_of_le (by omega),
    List.length_drop]
  omega

/-- What is read back behind an overwriting at its own place. It is what was put there. -/
theorem overwrite_inside (elements source : List β) (offset start count : Nat)
    (inside : offset + source.length ≤ elements.length) (room : start + count ≤ source.length) :
    ((overwrite elements offset source).drop (offset + start)).take count =
      (source.drop start).take count := by
  have front : (elements.take offset).length = offset := List.length_take_of_le (by omega)
  rw [overwrite, List.append_assoc, List.drop_append, front, List.drop_of_length_le (by omega),
    List.nil_append, Nat.add_sub_cancel_left, List.drop_append_of_le_length (by omega),
    List.take_append_of_le_length (by rw [List.length_drop]; omega)]

/-- In front of the overwriting everything is as before. What is looked at ends in front of it. -/
theorem overwrite_front (elements source : List β) (offset start count : Nat)
    (inside : offset + source.length ≤ elements.length) (early : start + count ≤ offset) :
    ((overwrite elements offset source).drop start).take count =
      (elements.drop start).take count := by
  have front : (elements.take offset).length = offset := List.length_take_of_le (by omega)
  rw [overwrite, List.append_assoc, List.drop_append_of_le_length (by omega),
    List.take_append_of_le_length (by rw [List.length_drop]; omega), List.drop_take,
    List.take_take, Nat.min_eq_left (by omega)]

/-- Behind the overwriting everything is as before. What is looked at begins behind the source. -/
theorem overwrite_behind (elements source : List β) (offset start : Nat)
    (inside : offset + source.length ≤ elements.length) (late : offset + source.length ≤ start) :
    (overwrite elements offset source).drop start = elements.drop start := by
  have front : (elements.take offset ++ source).length = offset + source.length := by
    rw [List.length_append, List.length_take_of_le (by omega)]
  rw [overwrite, List.drop_append, front, List.drop_of_length_le (by omega), List.nil_append,
    List.drop_drop, Nat.add_sub_cancel' late]

/-- Overwriting to the end and past it keeps a front exactly if it puts there what the front
has there. -/
theorem overwrite_keeps_front (elements source : List β) (offset total : Nat)
    (within : offset ≤ elements.length) (past : elements.length ≤ offset + source.length) :
    (overwrite elements offset source).take total = elements.take total ↔
      source.take (total - offset) = (elements.take total).drop offset := by
  have front : (elements.take offset).length = offset := List.length_take_of_le within
  rw [overwrite, List.drop_of_length_le past, List.append_nil, List.take_append, front,
    List.take_take]
  rcases Nat.le_total total offset with early | late
  · rw [Nat.min_eq_left early, Nat.sub_eq_zero_of_le early, List.take_zero,
      List.drop_of_length_le ((List.length_take_le _ _).trans early)]
    simp
  · have split := List.take_append_drop offset (elements.take total)
    rw [List.take_take, Nat.min_eq_left late] at split
    rw [Nat.min_eq_right late]
    constructor
    · intro same
      exact List.append_cancel_left (same.trans split.symm)
    · intro same
      rw [same, split]

/-- A write of whole sectors has replaced exactly these. The write has to be of whole sectors and
to end inside the store. -/
theorem sector_overwrite (elements source : List β) (first count number : Nat)
    (whole : source.length = size * count) (inside : size * (first + count) ≤ elements.length) :
    sector size (overwrite elements (size * first) source) number =
      written size (sector size elements) first count source number := by
  have room : size * first + source.length ≤ elements.length := by rwa [whole, ← Nat.mul_add]
  by_cases late : first ≤ number
  · by_cases early : number < first + count
    · obtain ⟨offset, rfl⟩ := Nat.exists_eq_add_of_le late
      have fits : size * offset + size ≤ source.length := by
        rw [whole, ← Nat.mul_succ]
        exact Nat.mul_le_mul_left size (by omega)
      rw [written, if_pos ⟨late, early⟩, Nat.add_sub_cancel_left, sector, sector, Nat.mul_add]
      exact overwrite_inside elements source _ _ size room fits
    · have behind : size * first + source.length ≤ size * number := by
        rw [whole, ← Nat.mul_add]
        exact Nat.mul_le_mul_left size (Nat.le_of_not_lt early)
      rw [written, if_neg (fun both => early both.2), sector,
        overwrite_behind elements source _ _ room behind]
      rfl
  · have before : size * number + size ≤ size * first := by
      rw [← Nat.mul_succ]
      exact Nat.mul_le_mul_left size (Nat.lt_of_not_le late)
    rw [written, if_neg (fun both => late both.1), sector,
      overwrite_front elements source _ _ size room before]
    rfl

end EffiLib.Sectors
