import EffiLib.Des.KeySchedule

/-!
# Complementation

Permutations and rotations carry a complement through. In the mix of a half both arguments
of the exclusive or are complemented, so the S-boxes see the same bits, and one complement
remains in the half that is combined.
-/

namespace EffiLib.Des

open BitBlocks Feistel

/-- A permuted complement is the complement of what is permuted. Both sides are compared bit by
bit. -/
theorem block_permute_complement {size width : Nat} (table : Table (8 * size) (8 * width))
    (input : Block size) :
    (blockPermute table (complement input) : Block width) =
      complement (blockPermute table input) := by
  apply bits_injective
  rw [block_permute, bits_complement, bits_complement, block_permute,
    permute_complement _ _ (table_within table)]

/-- A rotated complement is the complement of what is rotated. A rotation moves bits and tests
none. -/
theorem rotate_complement (cd : Block 7) :
    blockLeftRotateHalves (complement cd) = complement (blockLeftRotateHalves cd) := by
  have within : Within 56 rotation := by decide
  apply bits_injective
  rw [block_left_rotate_halves, bits_complement, bits_complement, block_left_rotate_halves,
    permute_complement _ _ within]

/-- The rotations of a round carry a complement through. There are one or two rotations in a
round. -/
theorem rotate_round_complement (cidi : Block 7) (i : Nat) :
    rotateRound (complement cidi) i = complement (rotateRound cidi i) := by
  rw [rotateRound, rotateRound]
  by_cases twice : i ≠ 0 ∧ i ≠ 1 ∧ i ≠ 8 ∧ i ≠ 15
  · simp only [if_pos twice, rotate_complement]
  · simp only [if_neg twice, rotate_complement]

/-- A complemented key is complemented in every round. Proof: by induction on the rounds before
it. -/
theorem ci_di_complement (key : Block 8) (i : Nat) :
    ciDi (complement key) i = complement (ciDi key i) := by
  induction i with
  | zero => rw [ciDi, ciDi, @block_permute_complement 8 7 PC1]
  | succ i inductionHypothesis => rw [ciDi, inductionHypothesis, rotate_round_complement, ciDi]

/-- The mix of a half does not see the complement of both arguments. The expanded half meets
the subkey in an exclusive or, and there the two complements cancel. -/
theorem f_complement (subKey : Block 6) (a : Block 4) :
    f (complement subKey) (complement a) = f subKey a := by
  rw [f, f, @block_permute_complement 4 6 E, block_xor_whole, block_xor_whole, combine_complements]

/-- The halves of a complement are complements. The parts of a block are cut at bytes. -/
theorem split_complement (block : Block 8) :
    split (complement block) = (split block).map complement complement :=
  Prod.ext (slice_complement block 0 _) (slice_complement block 4 _)

/-- Complements are joined to a complement. This is the last step before the final permutation. -/
theorem join_complement (pair : Block 4 × Block 4) :
    join (pair.map complement complement).swap = complement (join pair.swap) :=
  append_complement pair.2 pair.1

/-- The cipher carries complements through. A round adds an unchanged value of `f`
to a complemented half. -/
theorem crypt_complement (subKey other : Fin 16 → Block 6) (message : Block 8)
    (complements : ∀ i, other i = complement (subKey i)) :
    desCrypt other (complement message) = complement (desCrypt subKey message) := by
  have keys : subKeys other = (subKeys subKey).map complement := by
    rw [subKeys, subKeys, List.map_map]
    exact List.map_congr_left fun i _ => complements i
  have commutes (left : Block 4) (key : Block 6) (right : Block 4) :
      complement (combine left (f key right)) =
        combine (complement left) (f (complement key) (complement right)) := by
    rw [f_complement, combine_complement]
  have mapped := rounds_map combine f combine f complement complement commutes (subKeys subKey)
    (split (blockPermute IP message))
  rw [des_crypt, des_crypt, @block_permute_complement 8 8 IP, split_complement, keys, mapped,
    join_complement, @block_permute_complement 8 8 IPInv]

/-- Complementing key and message complements the cipher. Proof: permutations and rotations carry
a complement through, and in each round the complements of subkey and half cancel out. -/
theorem encryption_complement (key message : Block 8) :
    ∃ k k', desKeySchedule true key = some k ∧ desKeySchedule true (complement key) = some k' ∧
      desEncrypt (complement message) k' = complement (desEncrypt message k) := by
  obtain ⟨k, made, subKey⟩ := key_schedule key
  obtain ⟨k', made', other⟩ := key_schedule (complement key)
  refine ⟨k, k', made, made', crypt_complement _ _ message ?_⟩
  intro i
  rw [other, subKey, ci_di_complement, @block_permute_complement 7 6 PC2]

end EffiLib.Des
