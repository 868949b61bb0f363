import EffiLib.Des.KeySchedule
import EffiLib.Des.Standard

/-!
# The standard's keys

Read as bit vectors, one call of the rotation is a rotation of each half by one, so the
rotations of the rounds add up. A subkey is then the permuted choice from both halves of the
key, rotated by the shifts of all rounds so far. The bits that the first permuted choice does
not name have no part in any subkey.
-/

namespace EffiLib.Des

open BitBlocks

/-! ## Rotations of the halves -/

/-- Rotations of one word add up. The amount counts modulo the width. -/
theorem rotate_add {width : Nat} (word : BitVec width) (first second : Nat) :
    (word.rotateLeft first).rotateLeft second = word.rotateLeft (first + second) := by
  apply BitVec.eq_of_getMsbD_eq
  intro place inside
  have below : (second + place) % width < width := Nat.mod_lt _ (by omega)
  have position : (first + (second + place) % width) % width =
      (first + second + place) % width := by
    rw [Nat.add_mod_mod, Nat.add_assoc]
  rw [BitVec.getMsbD_rotateLeft, BitVec.getMsbD_rotateLeft, BitVec.getMsbD_rotateLeft, position]
  simp only [inside, below, decide_true, Bool.true_and]

/-- Two halves of a key, rotated by the same shift. The first one is in front. -/
def rotatedHalves (first second : BitVec 28) (shift : Nat) : BitVec 56 :=
  first.rotateLeft shift ++ second.rotateLeft shift

/-- One bit of the rotated halves. A rotation to the left reads further behind and begins again at
the end of its half. -/
theorem rotated_halves_get (first second : BitVec 28) (shift place : Nat) (inside : place < 56) :
    (rotatedHalves first second shift).getMsbD place =
      if place < 28 then first.getMsbD ((shift + place) % 28)
      else second.getMsbD ((shift + (place - 28)) % 28) := by
  rw [rotatedHalves, BitVec.getMsbD_append]
  by_cases early : place < 28
  · rw [if_neg (Nat.not_le_of_lt early), if_pos early, BitVec.getMsbD_rotateLeft]
    simp only [early, decide_true, Bool.true_and]
  · have late : place - 28 < 28 := by omega
    rw [if_pos (Nat.le_of_not_lt early), if_neg early, BitVec.getMsbD_rotateLeft]
    simp only [late, decide_true, Bool.true_and]

/-- The place that a rotation reads in the first or in the second half. All 56 places are
tried. -/
theorem rotation_place (place : Fin 56) :
    if place.val < 28 then rotation place - 1 = (1 + place) % 28
    else rotation place - 1 = 28 + (1 + (place - 28)) % 28 := by
  revert place
  decide

/-- The rotation of the code rotates each half by one. The amount is one for a call of the code,
and a round calls it once or twice. -/
theorem rotation_halves (first second : BitVec 28) :
    permute rotation (first ++ second) = rotatedHalves first second 1 := by
  apply BitVec.eq_of_getMsbD_eq
  intro place inside
  have source := rotation_place ⟨place, inside⟩
  rw [permute_get rotation _ ⟨place, inside⟩, rotated_halves_get _ _ _ _ inside,
    BitVec.getMsbD_append]
  by_cases early : place < 28
  · have below : (1 + place) % 28 < 28 := Nat.mod_lt _ (by decide)
    rw [if_pos early] at source ⊢
    rw [source, if_neg (Nat.not_le_of_lt below)]
  · rw [if_neg early] at source ⊢
    rw [source, if_pos (Nat.le_add_right _ _), Nat.add_sub_cancel_left]

/-- One call of the rotation is one more shift of both halves. This is the step from which the
shifts of a schedule are added up. -/
theorem block_left_rotate_shift (cd : Block 7) (first second : BitVec 28) (shift : Nat)
    (rotated : bits cd = rotatedHalves first second shift) :
    bits (blockLeftRotateHalves cd) = rotatedHalves first second (shift + 1) := by
  rw [block_left_rotate_halves, rotated, rotatedHalves, rotation_halves, rotatedHalves,
    rotate_add, rotate_add, rotatedHalves]

/-- The shifts of a round. The rounds are counted from zero, as in the code. -/
def roundShift (i : Nat) : Nat := if i ≠ 0 ∧ i ≠ 1 ∧ i ≠ 8 ∧ i ≠ 15 then 2 else 1

/-- A round shifts both halves by its own shift. One or two calls are added to the shifts that are
there. -/
theorem rotate_round_shift (cidi : Block 7) (i : Nat) (first second : BitVec 28) (shift : Nat)
    (rotated : bits cidi = rotatedHalves first second shift) :
    bits (rotateRound cidi i) = rotatedHalves first second (shift + roundShift i) := by
  have once := block_left_rotate_shift cidi first second shift rotated
  rw [rotateRound, roundShift]
  by_cases twice : i ≠ 0 ∧ i ≠ 1 ∧ i ≠ 8 ∧ i ≠ 15
  · rw [if_pos twice, if_pos twice]
    exact block_left_rotate_shift _ first second (shift + 1) once
  · rw [if_neg twice, if_neg twice]
    exact once

/-- The shifts of the rounds are the standard's. All sixteen rounds are tried. -/
theorem cumulative_shift (i : Fin 16) :
    Standard.cumulativeShift (i + 1) = Standard.cumulativeShift i + roundShift i := by
  revert i
  decide

/-! ## Subkeys -/

/-- The permuted choices of the code are the standard's. Every place of both tables is
compared. -/
theorem choices_standard :
    PC1.places = Standard.permutedChoice1.get ∧ PC2.places = Standard.permutedChoice2.get := by
  constructor <;> funext place <;> revert place <;> decide

/-- A word of 56 bits is its first half in front of its second. So the permuted key is two halves
that no rotation has moved. -/
theorem halves_append (word : BitVec 56) :
    word = word.extractLsb' 28 28 ++ word.extractLsb' 0 28 := by
  apply BitVec.eq_of_getLsbD_eq
  intro place inside
  rw [BitVec.getLsbD_append, BitVec.getLsbD_extractLsb', BitVec.getLsbD_extractLsb']
  by_cases low : place < 28
  · simp [low]
  · have high : place - 28 < 28 := by omega
    have whole : 28 + (place - 28) = place := by omega
    simp [low, high, whole]

/-- Before each round the bytes are both halves of the key, rotated by the shifts so far. Proof:
by induction on the round, since rotations add up. -/
theorem ci_di_standard (key : Block 8) (i : Nat) (inside : i ≤ 16) :
    bits (ciDi key i) = rotatedHalves (Standard.firstKeyHalf (bits key))
      (Standard.secondKeyHalf (bits key)) (Standard.cumulativeShift i) := by
  induction i with
  | zero =>
    have unshifted (word : BitVec 28) : word.rotateLeft 0 = word := by
      apply BitVec.eq_of_getMsbD_eq
      intro place below
      rw [BitVec.getMsbD_rotateLeft, Nat.zero_add, Nat.mod_eq_of_lt below, decide_eq_true below,
        Bool.true_and]
    have isZero : Standard.cumulativeShift 0 = 0 := rfl
    rw [ciDi, block_permute, choices_standard.1, isZero, rotatedHalves, unshifted, unshifted]
    exact halves_append _
  | succ i inductionHypothesis =>
    rw [ciDi, cumulative_shift ⟨i, inside⟩]
    exact rotate_round_shift _ i _ _ _ (inductionHypothesis (Nat.le_of_succ_le inside))

/-- The subkey that a round stores is the key of the standard's iteration. Proof: the rotated
halves are those of the standard after every round, and the choice is the same table. -/
theorem sub_key_standard (key : Block 8) (i : Fin 16) :
    bits (blockPermute PC2 (ciDi key (i + 1)) : Block 6) =
      Standard.iterationKey (bits key) (i + 1) := by
  rw [block_permute, choices_standard.2, ci_di_standard key _ i.isLt, Standard.iterationKey,
    rotatedHalves]

/-! ## Unused bits -/

/-- Two keys differ in nothing but the least significant bit of each byte. That bit is the parity
of the byte. -/
def SameButParity (key other : Block 8) : Prop :=
  ∀ index, other.get index &&& 0xFE = key.get index &&& 0xFE

/-- Seven of eight bits are read from the masked byte. Only the parity bit is masked away. -/
theorem masked_bit (ch : uChar) (place : Nat) (inside : place < 7) :
    (ch &&& 0xFE).toBitVec.getMsbD place = ch.toBitVec.getMsbD place := by
  have mask : ∀ place : Fin 7, (0xFE : uChar).toBitVec.getMsbD place = true := by decide
  rw [UInt8.toBitVec_and, BitVec.getMsbD_and, mask ⟨place, inside⟩, Bool.and_true]

/-- Permuted choice 1 takes no least significant bit. All 56 places are tried. -/
theorem choice_skips_parity (place : Fin 56) : (PC1.places place - 1) % 8 < 7 := by
  revert place
  decide

/-- Keys that differ in these bits only have the same permuted choice. The schedule begins with
this choice and reads the key nowhere else. -/
theorem choice_same (key other : Block 8) (same : SameButParity key other) :
    (blockPermute PC1 other : Block 7) = blockPermute PC1 key := by
  apply bits_injective
  rw [block_permute, block_permute]
  apply BitVec.eq_of_getMsbD_eq
  intro place inside
  have named := table_within PC1 ⟨place, inside⟩
  have below : PC1.places ⟨place, inside⟩ - 1 < 8 * 8 := by omega
  have high := choice_skips_parity ⟨place, inside⟩
  rw [permute_get _ _ ⟨place, inside⟩, permute_get _ _ ⟨place, inside⟩, bits_get _ _ below,
    bits_get _ _ below, ← masked_bit _ _ high, same, masked_bit _ _ high]

/-- Each subkey is the standard's key of its iteration, and keys that differ in the least
significant bits only have one schedule. Proof: rotations add up to the shifts of the standard,
and the first permuted choice names none of these bits. -/
theorem key_schedule_standard (key : Block 8) :
    ∃ k, desKeySchedule true key = some k ∧
      (∀ i : Fin 16, bits (subKeyAt k i) = Standard.iterationKey (bits key) (i + 1)) ∧
      ∀ other, SameButParity key other → desKeySchedule true other = some k := by
  obtain ⟨k, made, subKeys⟩ := key_schedule key
  refine ⟨k, made, ?_, ?_⟩
  · intro i
    rw [subKeys]
    exact sub_key_standard key i
  · intro other same
    rw [← made, desKeySchedule, desKeySchedule, choice_same key other same]

end EffiLib.Des
