import EffiLib.Des.Cipher

/-!
# The bits of the cipher's blocks

What each helper does to bytes is stated once for the bits of whole blocks: a permutation
chooses bits by its table, an exclusive or lands in one part of an array, and the rotation
moves every bit to its left neighbour's place in its half.
-/

namespace EffiLib.Des

open BitBlocks

variable {size width : Nat}

/-! ## Single bits -/

/-- The mask of a bit is a power of two. Place zero is the highest bit, which is how the source
numbers the bits of a byte. -/
theorem mask_power (place : Nat) (inside : place < 8) :
    ((1 : uChar) <<< UInt8.ofNat (7 - place)).toBitVec = BitVec.twoPow 8 (7 - place) := by
  have all : ∀ q : Fin 8, ((1 : uChar) <<< UInt8.ofNat (7 - q)).toBitVec =
      BitVec.twoPow 8 (7 - q) := by decide
  exact all ⟨place, inside⟩

/-- A masked byte tells its bit. Places are counted from the highest bit. `isBitSet` compares the
masked byte with zero. -/
theorem mask_bit (ch : uChar) (place : Nat) (inside : place < 8) :
    (ch &&& (1 <<< UInt8.ofNat (7 - place)) != 0) = ch.toBitVec.getMsbD place := by
  have masked : (ch &&& (1 <<< UInt8.ofNat (7 - place))).toBitVec =
      if ch.toBitVec.getMsbD place then BitVec.twoPow 8 (7 - place) else 0#8 := by
    rw [UInt8.toBitVec_and, mask_power place inside, BitVec.and_twoPow,
      BitVec.getMsbD_eq_getLsbD]
    simp only [inside, decide_true, Bool.true_and]
  have power : BitVec.twoPow 8 (7 - place) ≠ 0#8 := fun zero => by
    have bit : (BitVec.twoPow 8 (7 - place)).getMsbD place = false := by
      rw [zero, BitVec.getMsbD_zero]
    rw [BitVec.getMsbD_twoPow] at bit
    simp only [Bool.and_eq_false_imp, decide_eq_true_eq, decide_eq_false_iff_not] at bit
    exact bit (by omega) (by omega)
  rw [Bool.eq_iff_iff, bne_iff_ne, ne_eq, ← UInt8.toBitVec_inj, masked]
  by_cases set : ch.toBitVec.getMsbD place = true
  · simp [set, power]
  · simp [set]

/-- `isBitSet` reads a bit of the block. The byte is chosen by the quotient of the number by eight
and the bit by the remainder. -/
theorem is_bit_set (array : Block size) (bitNum : Nat) (inside : bitNum < 8 * size) :
    isBitSet array bitNum inside = (bits array).getMsbD bitNum := by
  rw [isBitSet, mask_bit _ _ (Nat.mod_lt _ (by decide)), bits_get _ _ inside]

/-- `setBit` sets one bit of a byte and keeps the others. -/
theorem set_bit (ch : uChar) (bitPos place : Nat) (position : bitPos < 8) :
    (setBit ch bitPos).toBitVec.getMsbD place =
      (ch.toBitVec.getMsbD place || decide (place = bitPos)) := by
  rw [setBit, UInt8.toBitVec_or, mask_power bitPos position, BitVec.getMsbD_or,
    BitVec.getMsbD_twoPow]
  congr 1
  simp only [show 7 - bitPos < 8 by omega, decide_true, Bool.true_and]
  exact decide_eq_decide.mpr (by omega)

/-- `resetBit` clears one bit of a byte and keeps the others. -/
theorem reset_bit (ch : uChar) (bitPos place : Nat) (position : bitPos < 8) (inside : place < 8) :
    (resetBit ch bitPos).toBitVec.getMsbD place =
      (ch.toBitVec.getMsbD place && decide (place ≠ bitPos)) := by
  rw [resetBit, UInt8.toBitVec_and, UInt8.toBitVec_not, mask_power bitPos position,
    BitVec.getMsbD_and, BitVec.getMsbD_not, BitVec.getMsbD_twoPow]
  congr 1
  have only : (place = 8 - (7 - bitPos) - 1) ↔ place = bitPos := by omega
  simp only [inside, show 7 - bitPos < 8 by omega, only, decide_true, Bool.true_and, decide_not]

/-! ## Loops over blocks -/

/-- One byte of a block after one byte is replaced. The facts about bits below are derived from
it. -/
theorem put_get (array : Block size) (index other : Fin size) (ch : uChar) :
    (put array index ch).get other = if index = other then ch else array.get other := by
  change (array.set index ch)[other.val] = if index = other then ch else array[other.val]
  rw [Vector.getElem_set]
  simp only [Fin.ext_iff]

/-- One bit of a block after one byte is replaced. The quotient of a place by eight names its
byte. -/
theorem bits_put (array : Block size) (index : Fin size) (ch : uChar) (place : Nat)
    (inside : place < 8 * size) :
    (bits (put array index ch)).getMsbD place =
      if place / 8 = index then ch.toBitVec.getMsbD (place % 8)
      else (bits array).getMsbD place := by
  rw [bits_get _ _ inside, bits_get _ _ inside, put_get]
  by_cases here : place / 8 = index
  · rw [if_pos here, if_pos (Fin.ext here.symm)]
  · rw [if_neg here, if_neg fun same => here (congrArg Fin.val same).symm]

/-- A byte set into another adds its bits to the block. The S-box loop packs two entries into a
byte so. -/
theorem bits_put_or (array : Block size) (index : Fin size) (ch : uChar) (place : Nat)
    (inside : place < 8 * size) :
    (bits (put array index (array.get index ||| ch))).getMsbD place =
      ((bits array).getMsbD place ||
        (decide (place / 8 = index) && ch.toBitVec.getMsbD (place % 8))) := by
  rw [bits_put _ _ _ _ inside, UInt8.toBitVec_or, BitVec.getMsbD_or, bits_get _ _ inside]
  by_cases here : place / 8 = index
  · have same : index = ⟨place / 8, byte_inside inside⟩ := Fin.ext here.symm
    rw [if_pos here, same]
    simp only [decide_true, Bool.true_and]
  · rw [if_neg here]
    simp only [here, decide_false, Bool.false_and, Bool.or_false]

/-- Setting a bit of its byte sets one bit of the block. The position counts over all bytes of the
block, as the permutation loop counts. -/
theorem bits_set_bit (array : Block size) (position place : Nat) (below : position < 8 * size)
    (inside : place < 8 * size) :
    (bits (put array ⟨position / 8, byte_inside below⟩
      (setBit (array.get ⟨position / 8, byte_inside below⟩) (position % 8)))).getMsbD place =
        ((bits array).getMsbD place || decide (place = position)) := by
  rw [bits_put _ _ _ _ inside, set_bit _ _ _ (Nat.mod_lt _ (by decide)), bits_get _ _ inside]
  by_cases here : place / 8 = position / 8
  · have same : place % 8 = position % 8 ↔ place = position := by omega
    simp only [here, if_true, same]
  · have other : place ≠ position := fun same => here (by rw [same])
    simp only [here, if_false, other, decide_false, Bool.or_false]

/-- The places of a table as numbers. They are still counted from one. -/
def Table.places {inBits outBits : Nat} (table : Table inBits outBits) (i : Fin outBits) : Nat :=
  (table.entries.get i).toNat

/-- The places are in the input. The entries of the source are checked against the width once,
where the table is built. -/
theorem table_within {inBits outBits : Nat} (table : Table inBits outBits) :
    Within inBits table.places :=
  table.inside

/-- After `i` steps of `blockPermute` the bits below `i` are chosen and the others clear. It is
the invariant of the loop. -/
def Chosen (table : Table (8 * size) (8 * width)) (input : Block size) (i : Nat)
    (output : Block width) : Prop :=
  ∀ place : Fin (8 * width), (bits output).getMsbD place =
    (decide (place < i) && (bits input).getMsbD (table.places place - 1))

/-- `blockPermute` chooses the bits that its table names. Proof: a step sets or leaves one bit,
and the output was clear. -/
theorem block_permute (table : Table (8 * size) (8 * width)) (input : Block size) :
    bits (blockPermute table input : Block width) = permute table.places (bits input) := by
  have all : Chosen table input (8 * width) (blockPermute table input) := by
    apply loop_rule (Chosen table input)
    · intro place
      rw [bits_clear]
      simp only [Nat.not_lt_zero, decide_false, Bool.false_and]
    · intro i output chosen place
      rw [is_bit_set]
      change (bits (if (bits input).getMsbD (table.places i - 1) = true then _ else output)).getMsbD
        place = _
      have next : place.val < i + 1 ↔ place.val < i ∨ place = i := by
        rw [Nat.lt_succ_iff_lt_or_eq, Fin.ext_iff]
      by_cases selected : (bits input).getMsbD (table.places i - 1) = true
      · rw [if_pos selected, bits_set_bit _ _ _ i.isLt place.isLt, chosen place]
        rcases eq_or_ne place i with rfl | other
        · simp [selected]
        · have apart : place.val ≠ i.val := fun same => other (Fin.ext same)
          simp [next, other, apart]
      · rw [if_neg selected, chosen place]
        rcases eq_or_ne place i with rfl | other
        · simp [selected]
        · simp [next, other]
  apply BitVec.eq_of_getMsbD_eq
  intro place inside
  rw [permute_get table.places _ ⟨place, inside⟩, all ⟨place, inside⟩]
  simp only [inside, decide_true, Bool.true_and]

/-- After `i` steps of `blockXOR` the first `i` bytes of the part are combined and nothing
else has changed. -/
def Combined (array : Block size) (arg1 : Nat) (arg2 : Block width)
    (inside : arg1 + width ≤ size) (i : Nat) (state : Block size) : Prop :=
  (∀ j : Fin width, state.get ⟨arg1 + j, part_inside inside j⟩ =
    if j < i then array.get ⟨arg1 + j, part_inside inside j⟩ ^^^ arg2.get j
    else array.get ⟨arg1 + j, part_inside inside j⟩) ∧
  ∀ index : Fin size, ¬ (arg1 ≤ index ∧ index < arg1 + width) → state.get index = array.get index

/-- `blockXOR` replaces the part by its exclusive or with the other block. The bytes outside the
part stay. -/
theorem block_xor (array : Block size) (arg1 : Nat) (arg2 : Block width)
    (inside : arg1 + width ≤ size) :
    blockXOR array arg1 arg2 inside =
      splice array arg1 (combine (slice array arg1 inside) arg2) := by
  have all : Combined array arg1 arg2 inside width (blockXOR array arg1 arg2 inside) := by
    apply loop_rule (Combined array arg1 arg2 inside)
    · exact ⟨fun _ => rfl, fun _ _ => rfl⟩
    · rintro i state ⟨part, rest⟩
      constructor
      · intro j
        rw [put_get, part i, if_neg (Nat.lt_irrefl _), part j]
        rcases eq_or_ne i j with rfl | other
        · rw [if_pos rfl, if_pos (Nat.lt_succ_self _)]
        · have apart : i.val ≠ j.val := fun same => other (Fin.ext same)
          have later : j.val < i + 1 ↔ j.val < i := by omega
          rw [if_neg (fun same => apart (by simpa using congrArg Fin.val same))]
          simp only [later]
      · intro index outside
        rw [put_get, if_neg (fun same => outside (by rw [← same]; simp)), rest index outside]
  apply block_ext
  intro index
  rw [splice_get]
  by_cases here : arg1 ≤ index ∧ index < arg1 + width
  · have place : index = ⟨arg1 + (index - arg1), by omega⟩ := Fin.ext (by simp only; omega)
    have combined := all.1 ⟨index - arg1, by omega⟩
    rw [dif_pos here]
    conv_lhs => rw [place]
    rw [combined, if_pos (by simp only; omega), combine_get, slice_get]
  · rw [dif_neg here, all.2 index here]

/-- `blockXOR` into a whole block. The loop of the source then runs over every byte of both. -/
theorem block_xor_whole (left right : Block size) (inside : 0 + size ≤ size) :
    blockXOR left 0 right inside = combine left right := by
  apply block_ext
  intro index
  rw [block_xor, splice_get, dif_pos ⟨Nat.zero_le _, by omega⟩, combine_get, combine_get, slice_get]
  simp only [Nat.sub_zero, Nat.zero_add]

end EffiLib.Des
