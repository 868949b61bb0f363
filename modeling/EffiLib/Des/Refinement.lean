import EffiLib.Des.Rounds
import EffiLib.Des.Standard

/-!
# The code refines the standard

Read as bit vectors, each helper of the code is the function of the standard: the S-box loop
substitutes every six bits, `f` is the cipher function, and the network on the halves of the
array is the standard's rounds.
-/

namespace EffiLib.Des

open BitBlocks Feistel

/-! ## Substitution -/

/-- One of the six bits for a box. The first function takes the leftmost. -/
theorem six_bits (word : BitVec 48) (i : Fin 8) (place : Nat) (below : place < 6) :
    (Standard.sixBits i word).getMsbD place = word.getMsbD (6 * i + place) := by
  have position : 48 - (42 - 6 * i.val + 6 - place) = 6 * i + place := by omega
  rw [Standard.sixBits, BitVec.getMsbD_extractLsb', position]
  simp only [below, show 42 - 6 * i.val + 6 - place ≤ 48 by omega, decide_true, Bool.true_and]

/-- The row of an S-box is the standard's. It is made of the two outer bits of the six. -/
theorem s_box_row (input : Block 6) (i : Fin 8) :
    (sBoxRow input i).val.toNat = (Standard.row (Standard.sixBits i (bits input))).val := by
  simp only [sBoxRow, is_bit_set, Standard.row, six_bits _ i 0 (by decide),
    six_bits _ i 5 (by decide), Nat.add_zero]
  cases (bits input).getMsbD (6 * i) <;> cases (bits input).getMsbD (6 * i + 5) <;> rfl

/-- The column of an S-box is the standard's. It is made of the four inner bits. -/
theorem s_box_column (input : Block 6) (i : Fin 8) :
    (sBoxColumn input i).val.toNat = (Standard.column (Standard.sixBits i (bits input))).val := by
  simp only [sBoxColumn, is_bit_set, Standard.column, six_bits _ i 1 (by decide),
    six_bits _ i 2 (by decide), six_bits _ i 3 (by decide), six_bits _ i 4 (by decide)]
  cases (bits input).getMsbD (6 * i + 1) <;> cases (bits input).getMsbD (6 * i + 2) <;>
    cases (bits input).getMsbD (6 * i + 3) <;> cases (bits input).getMsbD (6 * i + 4) <;> rfl

/-- The entries of the S-boxes are the standard's, and fit in four bits. Every box, row and column
is compared. -/
theorem s_box_entries (i : Fin 8) (row : Fin 4) (column : Fin 16) :
    (((S.get i).get row).get column).toNat =
      ((Standard.selectionFunctions.get i).get row).get column ∧
    (((S.get i).get row).get column).toNat < 16 := by
  have all : ∀ (i : Fin 8) (row : Fin 4) (column : Fin 16),
      (((S.get i).get row).get column).toNat =
        ((Standard.selectionFunctions.get i).get row).get column ∧
      (((S.get i).get row).get column).toNat < 16 := by decide +kernel
  exact all i row column

/-- Four bits in their half of a byte. An even box writes the upper half of its byte and an odd
one the lower half. -/
theorem nibble_bit (entry : uChar) (small : entry.toNat < 16) (odd place : Nat) (inside : place < 8)
    (parity : odd < 2) :
    (entry <<< (if odd ≠ 0 then 0 else 4 : uChar)).toBitVec.getMsbD place =
      (decide (place / 4 = odd) && (BitVec.ofNat 4 entry.toNat).getMsbD (place % 4)) := by
  have all : ∀ (value : Fin 16) (odd : Fin 2) (place : Fin 8),
      (UInt8.ofNat value <<< (if odd.val ≠ 0 then 0 else 4 : uChar)).toBitVec.getMsbD place =
        (decide (place / 4 = odd.val) && (BitVec.ofNat 4 value).getMsbD (place % 4)) := by
    decide +kernel
  have same : UInt8.ofNat entry.toNat = entry := UInt8.ofNat_toNat
  have shifted := all ⟨entry.toNat, small⟩ ⟨odd, parity⟩ ⟨place, inside⟩
  simp only [same] at shifted
  exact shifted

/-- The entry that the loop takes is the value of the standard's selection function. Row and
column have been compared before, so the entries are the same. -/
theorem s_box_entry (input : Block 6) (i : Fin 8) :
    BitVec.ofNat 4 (sBoxEntry input i).toNat =
        Standard.select i (Standard.sixBits i (bits input)) ∧
      (sBoxEntry input i).toNat < 16 := by
  have row : (⟨(sBoxRow input i).val.toNat, (sBoxRow input i).property⟩ : Fin 4) =
      Standard.row (Standard.sixBits i (bits input)) := Fin.ext (s_box_row input i)
  have column : (⟨(sBoxColumn input i).val.toNat, (sBoxColumn input i).property⟩ : Fin 16) =
      Standard.column (Standard.sixBits i (bits input)) := Fin.ext (s_box_column input i)
  simp only [sBoxEntry, row, column]
  obtain ⟨same, small⟩ := s_box_entries i (Standard.row (Standard.sixBits i (bits input)))
    (Standard.column (Standard.sixBits i (bits input)))
  exact ⟨by rw [same, Standard.select], small⟩

/-- After `i` boxes their four bits each are substituted and the others clear. It is the invariant
of the loop. -/
def Substituted (input : Block 6) (i : Nat) (result : Block 4) : Prop :=
  ∀ place : Fin 32, (bits result).getMsbD place =
    (decide (place < 4 * i) && (Standard.substitute (bits input)).getMsbD place)

/-- `blockPermuteSBox` into a clear block substitutes as the standard does. Proof: the loop keeps
that the four bits of each box behind it are set. -/
theorem block_permute_s_box (input : Block 6) :
    bits (blockPermuteSBox input (Vector.replicate 4 0)) = Standard.substitute (bits input) := by
  have all : Substituted input 8 (blockPermuteSBox input (Vector.replicate 4 0)) := by
    apply loop_rule (Substituted input)
    · intro place
      rw [bits_clear]
      simp only [Nat.mul_zero, Nat.not_lt_zero, decide_false, Bool.false_and]
    · intro i result substituted place
      change (bits (put result ⟨i / 2, by omega⟩ (result.get ⟨i / 2, by omega⟩ |||
        (sBoxEntry input i <<< if i.val % 2 ≠ 0 then 0 else 4)))).getMsbD place = _
      obtain ⟨selected, small⟩ := s_box_entry input i
      rw [bits_put_or _ _ _ _ place.isLt, substituted place,
        nibble_bit _ small _ _ (Nat.mod_lt _ (by decide)) (Nat.mod_lt _ (by decide)), selected,
        Standard.substitute, BitVec.getMsbD_ofFnBE, dif_pos place.isLt,
        Nat.mod_mod_of_dvd _ (by decide : 4 ∣ 8)]
      have box : decide (place / 8 = i.val / 2 ∧ place % 8 / 4 = i.val % 2) =
          decide (place / 4 = i.val) := decide_eq_decide.mpr (by omega)
      rw [← Bool.and_assoc, ← Bool.decide_and, box]
      by_cases here : place.val / 4 = i
      · have early : ¬ place.val < 4 * i := by omega
        have late : place.val < 4 * (i + 1) := by omega
        have same : i = ⟨place / 4, by omega⟩ := Fin.ext here.symm
        simp only [here, early, late, decide_true, decide_false, Bool.true_and, Bool.false_and,
          Bool.false_or]
      · have next : place.val < 4 * (i + 1) ↔ place.val < 4 * i := by omega
        simp only [here, next, decide_false, Bool.false_and, Bool.or_false]
  apply BitVec.eq_of_getMsbD_eq
  intro place inside
  rw [all ⟨place, inside⟩]
  simp only [inside, decide_true, Bool.true_and]

/-! ## The cipher -/

/-- The tables of the code are the standard's. Every place of each table is compared. -/
theorem tables_standard :
    IP.places = Standard.initialPermutation.get ∧
    IPInv.places = Standard.inverseInitialPermutation.get ∧
    E.places = Standard.bitSelection.get ∧ P.places = Standard.permutationP.get := by
  refine ⟨?_, ?_, ?_, ?_⟩ <;> funext place <;> revert place <;> decide

/-- `f` is the cipher function. Proof: expansion, exclusive or, substitution and permutation are
compared one after the other. -/
theorem f_standard (subKey : Block 6) (a : Block 4) :
    bits (f subKey a) = Standard.cipherFunction (bits subKey) (bits a) := by
  obtain ⟨-, -, expansion, permutation⟩ := tables_standard
  rw [f, Standard.cipherFunction, block_permute, block_permute_s_box, block_xor_whole,
    bits_combine, block_permute, expansion, permutation]

/-- Four bytes of a block are a word of its bits. A block has its first byte at the top of its
bits. -/
theorem half_bits (block : Block 8) (offset : Nat) (inside : offset + 4 ≤ 8) :
    bits (slice block offset inside : Block 4) = (bits block).extractLsb' (32 - 8 * offset) 32 := by
  apply BitVec.eq_of_getMsbD_eq
  intro place below
  have position : 8 * 8 - (32 - 8 * offset + 32 - place) = 8 * offset + place := by omega
  rw [bits_slice _ _ _ _ below, BitVec.getMsbD_extractLsb', position]
  simp only [show place < 32 from below, show 32 - 8 * offset + 32 - place ≤ 8 * 8 by omega,
    decide_true, Bool.true_and]

/-- The halves of a block are the upper and the lower word of its bits. The standard names them by
their bits. -/
theorem split_bits (block : Block 8) :
    (split block).map bits bits =
      ((bits block).extractLsb' 32 32, (bits block).extractLsb' 0 32) :=
  Prod.ext (half_bits block 0 (by decide)) (half_bits block 4 (by decide))

/-- The network on the code's halves is the standard's rounds. Proof: the bits of a round are a
round on the bits, so this is `rounds_map`. -/
theorem rounds_standard (subKey : Fin 16 → Block 6) (block : Block 8) :
    (rounds combine f (subKeys subKey) (split block)).map bits bits =
      ((List.finRange 16).map (fun i => bits (subKey i))).foldl Standard.standardRound
        ((bits block).extractLsb' 32 32, (bits block).extractLsb' 0 32) := by
  have commutes (left : Block 4) (key : Block 6) (right : Block 4) :
      bits (combine left (f key right)) =
        bits left ^^^ Standard.cipherFunction (bits key) (bits right) := by
    rw [bits_combine, f_standard]
  have mapped := rounds_map combine f (· ^^^ ·) Standard.cipherFunction bits bits commutes
    (subKeys subKey) (split block)
  rw [split_bits, subKeys, List.map_map] at mapped
  exact mapped.symm

/-- The code's encryption is the standard's. Proof: on bits each helper is the function of the
standard, and so is each round; the pointers only say which half is which. -/
theorem encryption_standard (message : Block 8) (k : KeySchedule) :
    bits (desEncrypt message k) =
      Standard.encipher (fun i => bits (subKeyAt k i)) (bits message) := by
  obtain ⟨initial, inverse, -, -⟩ := tables_standard
  have start : bits (blockPermute IP message : Block 8) =
      permute Standard.initialPermutation.get (bits message) := by
    rw [block_permute, initial]
  rw [desEncrypt, des_crypt, block_permute, inverse, Standard.encipher, ← start]
  apply permute_congr
  intro place
  rw [← rounds_standard]
  exact bits_append _ _ place

end EffiLib.Des
