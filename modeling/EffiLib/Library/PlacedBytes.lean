import EffiLib.Library.Sectors

/-!
# Sequences laid out in blocks

A sequence of elements lies in blocks of one size, wherever the blocks are placed. A piece of
the sequence is read out of a block or out of whole blocks; putting a piece into a block, or
whole blocks at once, replaces that piece and leaves the other elements.
-/

namespace EffiLib.PlacedBytes

open Sectors

universe u
variable {β : Type u}

/-- An element of the sequence in the blocks. Its index is split into the number of a block and
the offset there. -/
def element [Inhabited β] (size : Nat) (blocks : Nat → List β) (index : Nat) : β :=
  (blocks (index / size)).getD (index % size) default

/-- The sequence from one element on. It has `count` elements, whatever blocks they come from. -/
def piece (elements : Nat → β) (first count : Nat) : List β :=
  (List.range' first count).map elements

/-- The sequence with a list put over it. The elements outside of the list stay. -/
def overlay [Inhabited β] (elements : Nat → β) (first : Nat) (source : List β) (index : Nat) : β :=
  if first ≤ index ∧ index < first + source.length then source.getD (index - first) default
  else elements index

/-- A piece has as many elements as were asked for. It is a list of consecutive elements. -/
@[simp] theorem piece_length (elements : Nat → β) (first count : Nat) :
    (piece elements first count).length = count := by
  rw [piece, List.length_map, List.length_range']

/-- An element of a piece. Behind its end there is none. -/
theorem piece_get_elem? (elements : Nat → β) (first count index : Nat) :
    (piece elements first count)[index]? =
      if index < count then some (elements (first + index)) else none := by
  rw [piece, List.getElem?_map]
  split
  · rename_i inside
    rw [List.getElem?_range' inside, Nat.one_mul]
    rfl
  · rename_i outside
    rw [List.getElem?_eq_none (by rw [List.length_range']; omega)]
    rfl

/-- A list that has the elements of a piece is the piece. This is how what a read delivers is
recognized. -/
theorem eq_piece [Inhabited β] (elements : Nat → β) (first : Nat) (source : List β)
    (same : ∀ index < source.length, source.getD index default = elements (first + index)) :
    source = piece elements first source.length := by
  refine List.ext_getElem? (fun index => ?_)
  rw [piece_get_elem?]
  split
  · rename_i inside
    rw [← same index inside, List.getD_eq_getElem?_getD, List.getElem?_eq_getElem inside,
      Option.getD_some]
  · rename_i outside
    exact List.getElem?_eq_none (Nat.le_of_not_lt outside)

/-- Pieces depend on their elements. Elements outside of the piece do not matter. -/
theorem piece_congr (elements other : Nat → β) (first count : Nat)
    (same : ∀ index, first ≤ index → index < first + count → elements index = other index) :
    piece elements first count = piece other first count := by
  refine List.map_congr_left (fun index member => ?_)
  obtain ⟨above, below⟩ := List.mem_range'_1.mp member
  exact same index above below

/-- Pieces that follow each other. They are one piece together. -/
theorem piece_append (elements : Nat → β) (first count more : Nat) :
    piece elements first count ++ piece elements (first + count) more =
      piece elements first (count + more) := by
  rw [piece, piece, piece, ← List.map_append, List.range'_append_1]

/-- A piece of a piece. Pieces of pieces are pieces of the sequence. -/
theorem piece_window (elements : Nat → β) (first count start more : Nat)
    (inside : start + more ≤ count) :
    ((piece elements first count).drop start).take more = piece elements (first + start) more := by
  refine List.ext_getElem? (fun index => ?_)
  rw [List.getElem?_take, List.getElem?_drop, piece_get_elem?, piece_get_elem?]
  split
  · rw [if_pos (by omega), Nat.add_assoc]
  · rfl

/-- The front of a piece. It is the shorter piece from the same place. -/
theorem piece_take (elements : Nat → β) (first count shorter : Nat) (less : shorter ≤ count) :
    (piece elements first count).take shorter = piece elements first shorter := by
  have window := piece_window elements first count 0 shorter (by omega)
  rwa [List.drop_zero, Nat.add_zero] at window

/-- Putting a list over a sequence overwrites its front pieces. This is what a write does to a
file: bytes below its end are replaced, and bytes behind it make the file longer. -/
theorem piece_overlay [Inhabited β] (elements changed : Nat →
    β) (count first : Nat) (source : List β)
    (reached : first ≤ count)
    (same : ∀ index < max count (first + source.length),
      changed index = overlay elements first source index) :
    piece changed 0 (max count (first + source.length)) =
      overwrite (piece elements 0 count) first source := by
  refine List.ext_getElem? (fun index => ?_)
  have front : ((piece elements 0 count).take first).length = first := by
    rw [List.length_take, piece_length]
    omega
  rw [piece_get_elem?, overwrite, Nat.zero_add]
  by_cases early : index < first
  · rw [if_pos (by omega), same index (by omega), overlay, if_neg (by omega),
      List.getElem?_append_left (by rw [List.length_append, front]; omega),
      List.getElem?_append_left (by rw [front]; exact early), List.getElem?_take_of_lt early,
      piece_get_elem?, if_pos (by omega), Nat.zero_add]
  · by_cases inside : index < first + source.length
    · rw [if_pos (by omega), same index (by omega), overlay, if_pos ⟨by omega, inside⟩,
        List.getElem?_append_left (by rw [List.length_append, front]; exact inside),
        List.getElem?_append_right (by rw [front]; omega), front, List.getD_eq_getElem?_getD,
        List.getElem?_eq_getElem (by omega), Option.getD_some]
    · rw [List.getElem?_append_right (by rw [List.length_append, front]; omega),
        List.length_append, front, List.getElem?_drop, piece_get_elem?]
      by_cases there : index < count
      · rw [if_pos (by omega), same index (by omega), overlay, if_neg (by omega), if_pos (by omega)]
        congr 2
        omega
      · rw [if_neg (by omega), if_neg (by omega)]

/-- Lists put over a sequence behind each other. They are put over it together. -/
theorem overlay_append [Inhabited β] (elements : Nat → β) (first : Nat) (source more : List β)
    (index : Nat) :
    overlay (overlay elements first source) (first + source.length) more index =
      overlay elements first (source ++ more) index := by
  rw [overlay, overlay, overlay, List.length_append]
  by_cases late : first + source.length ≤ index
  · by_cases inside : index < first + source.length + more.length
    · rw [if_pos ⟨late, inside⟩, if_pos (by omega), List.getD_append_right _ _ _ _ (by omega)]
      congr 1
      omega
    · rw [if_neg (by omega), if_neg (by omega), if_neg (by omega)]
  · rw [if_neg (by omega)]
    by_cases inside : first ≤ index
    · rw [if_pos (by omega), if_pos (by omega), List.getD_append _ _ _ _ (by omega)]
    · rw [if_neg (by omega), if_neg (by omega)]

section Blocks

variable [Inhabited β] (size : Nat) (positive : 0 < size) (blocks : Nat → List β)

include positive

/-- A place inside a block. So a place has one block and one offset in it. -/
theorem index_block (number offset : Nat) (inside : offset < size) :
    (size * number + offset) / size = number ∧ (size * number + offset) % size = offset := by
  constructor
  · rw [Nat.mul_add_div positive, Nat.div_eq_of_lt inside, Nat.add_zero]
  · rw [Nat.mul_add_mod, Nat.mod_eq_of_lt inside]

/-- A part of a block is a piece of the sequence. It stays in one block. -/
theorem block_piece (number offset count : Nat) (whole : (blocks number).length = size)
    (inside : offset + count ≤ size) :
    ((blocks number).drop offset).take count =
      piece (element size blocks) (size * number + offset) count := by
  have length : (((blocks number).drop offset).take count).length = count := by
    rw [List.length_take, List.length_drop]
    omega
  have same := eq_piece (element size blocks) (size * number + offset)
    (((blocks number).drop offset).take count) (fun index below => by
      rw [length] at below
      obtain ⟨quotient, remainder⟩ := index_block size positive number (offset + index) (by omega)
      rw [element, Nat.add_assoc, quotient, remainder, List.getD_eq_getElem?_getD,
        List.getD_eq_getElem?_getD, List.getElem?_take_of_lt below, List.getElem?_drop])
  rwa [length] at same

/-- Whole blocks are a piece of the sequence. The blocks are neighbours in the sequence, wherever
they are placed. -/
theorem blocks_piece (first count : Nat) (source : List β) (filled : source.length = size * count)
    (same : ∀ number < count, sector size source number = blocks (first + number)) :
    source = piece (element size blocks) (size * first) (size * count) := by
  rw [← filled]
  refine eq_piece _ _ source (fun index below => ?_)
  have block : index / size < count := Nat.div_lt_of_lt_mul (filled ▸ below)
  have place : (size * first + index) / size = first + index / size := Nat.mul_add_div positive ..
  have offset : (size * first + index) % size = index % size := Nat.mul_add_mod ..
  have small := Nat.mod_lt index positive
  rw [element, place, offset, ← same _ block, sector, List.getD_eq_getElem?_getD,
    List.getD_eq_getElem?_getD, List.getElem?_take_of_lt small, List.getElem?_drop,
    Nat.div_add_mod]

/-- A list put into one block replaces its piece. The other blocks may change only where no
element of this sequence lies. -/
theorem element_put (changed : Nat → List β) (number offset : Nat) (source : List β)
    (whole : (blocks number).length = size) (inside : offset + source.length ≤ size)
    (put : changed number = overwrite (blocks number) offset source) (index : Nat)
    (others : index / size ≠ number → changed (index / size) = blocks (index / size)) :
    element size changed index =
      overlay (element size blocks) (size * number + offset) source index := by
  have parts := Nat.div_add_mod index size
  have small := Nat.mod_lt index positive
  by_cases here : index / size = number
  · rw [here] at parts
    have front : ((blocks number).take offset).length = offset :=
      List.length_take_of_le (by omega)
    rw [element, here, put, overlay, overwrite, List.getD_eq_getElem?_getD]
    by_cases early : index % size < offset
    · rw [if_neg (by omega),
        List.getElem?_append_left (by rw [List.length_append, front]; omega),
        List.getElem?_append_left (by rw [front]; exact early), List.getElem?_take_of_lt early,
        element, here, List.getD_eq_getElem?_getD]
    · by_cases within : index % size < offset + source.length
      · rw [if_pos (by omega),
          List.getElem?_append_left (by rw [List.length_append, front]; exact within),
          List.getElem?_append_right (by rw [front]; omega), front, List.getD_eq_getElem?_getD]
        congr 2
        omega
      · rw [if_neg (by omega),
          List.getElem?_append_right (by rw [List.length_append, front]; omega),
          List.length_append, front, List.getElem?_drop, element, here, List.getD_eq_getElem?_getD]
        congr 2
        omega
  · have apart : ¬ (size * number + offset ≤ index ∧
        index < size * number + offset + source.length) := by
      rintro ⟨above, below⟩
      exact here (Nat.div_eq_of_lt_le (by rw [Nat.mul_comm]; omega)
        (by rw [Nat.mul_comm, Nat.mul_succ]; omega))
    rw [element, others here, overlay, if_neg apart, element]

/-- A list put at the start of a block with other contents replaces its piece, too, as far as
the list reaches. -/
theorem element_fresh (changed : Nat → List β) (number : Nat) (block source : List β)
    (whole : block.length = size) (inside : source.length ≤ size)
    (put : changed number = overwrite block 0 source) (index : Nat)
    (others : index / size ≠ number → changed (index / size) = blocks (index / size))
    (reached : index < size * number + source.length) :
    element size changed index = overlay (element size blocks) (size * number) source index := by
  have instead := element_put size positive (Function.update blocks number block) changed number 0
    source (by rw [Function.update_self]; exact whole) (by omega)
    (by rw [Function.update_self]; exact put) index
    (fun different => by rw [others different, Function.update_of_ne different])
  rw [instead, Nat.add_zero, overlay, overlay]
  split
  · rfl
  · rename_i outside
    have early : index < size * number := by omega
    have different : index / size ≠ number := by
      have less := Nat.div_lt_of_lt_mul early
      omega
    rw [element, Function.update_of_ne different, element]

/-- Whole blocks replace their piece. It covers the direct transfer of whole sectors, which goes
past the buffer. -/
theorem element_blocks (changed : Nat → List β) (first count : Nat) (source : List β)
    (filled : source.length = size * count) (index : Nat)
    (put : changed (index / size) = written size blocks first count source (index / size)) :
    element size changed index = overlay (element size blocks) (size * first) source index := by
  have parts := Nat.div_add_mod index size
  have small := Nat.mod_lt index positive
  rw [element, put, written, overlay]
  by_cases inside : first ≤ index / size ∧ index / size < first + count
  · obtain ⟨number, here⟩ := Nat.exists_eq_add_of_le inside.1
    have below : number + 1 ≤ count := by omega
    have room : size * (number + 1) ≤ size * count := Nat.mul_le_mul_left _ below
    rw [Nat.mul_succ] at room
    rw [here, Nat.mul_add] at parts
    rw [if_pos inside, if_pos (by omega), here, Nat.add_sub_cancel_left, sector,
      List.getD_eq_getElem?_getD, List.getD_eq_getElem?_getD, List.getElem?_take_of_lt small,
      List.getElem?_drop]
    congr 2
    omega
  · have apart : ¬ (size * first ≤ index ∧ index < size * first + source.length) := by
      rintro ⟨above, below⟩
      rw [filled, ← Nat.mul_add] at below
      exact inside ⟨(Nat.le_div_iff_mul_le positive).mpr (by rw [Nat.mul_comm]; exact above),
        Nat.div_lt_of_lt_mul below⟩
    rw [if_neg inside, if_neg apart, element]

end Blocks

end EffiLib.PlacedBytes
