import EffiLib.Des.Bits

/-!
# The rounds as a Feistel network

The two pointers always address different halves, so a round that combines one half in place
and exchanges the pointers is a round of a Feistel network on the halves. Decryption takes
the subkeys in the opposite order, between permutations that take each other back, and so
inverts encryption.
-/

namespace EffiLib.Des

open BitBlocks Feistel

/-- The left and the right half of a state. The array holds them in either order. -/
def halves (state : RoundState) : Block 4 × Block 4 :=
  (half state.ipResult state.lprev, half state.ipResult state.rprev)

/-- The halves of a block. The left one comes first. -/
def split (block : Block 8) : Block 4 × Block 4 := (half block firstHalf, half block secondHalf)

/-- A block from its halves. It takes `split` back. -/
def join (pair : Block 4 × Block 4) : Block 8 := pair.1 ++ pair.2

/-- One round on the array is one round on the halves: the half that is read stays, because
the other pointer addresses the half that is written. -/
theorem crypt_round (state : RoundState) (subKey : Block 6) :
    halves (cryptRound state subKey) = round combine f (halves state) subKey := by
  apply Prod.ext
  · change half (blockXOR _ state.lprev _ (by omega)) state.rprev = half state.ipResult state.rprev
    rw [block_xor]
    exact slice_splice_apart _ _ _ _ _ state.apart.symm
  · change half (blockXOR _ state.lprev _ (by omega)) state.lprev =
      combine (half state.ipResult state.lprev) _
    rw [block_xor]
    exact slice_splice _ _ _ _

/-- The subkeys in the order of the rounds. A round of the network takes one of them. -/
def subKeys (subKey : Fin 16 → Block 6) : List (Block 6) := (List.finRange 16).map subKey

/-- The cipher is the network between the two permutations, with the halves exchanged at
the end. -/
theorem des_crypt (subKey : Fin 16 → Block 6) (message : Block 8) :
    desCrypt subKey message = blockPermute IPInv
      (join (rounds combine f (subKeys subKey) (split (blockPermute IP message))).swap) := by
  let start : RoundState := ⟨blockPermute IP message, firstHalf, secondHalf, by decide⟩
  have network : halves (loop 16 (fun state i => cryptRound state (subKey i)) start) =
      rounds combine f (subKeys subKey) (halves start) := by
    rw [rounds, subKeys, List.foldl_map]
    exact (List.foldl_hom halves fun state i => (crypt_round state (subKey i)).symm).symm
  rw [show split (blockPermute IP message) = halves start from rfl, ← network]
  rfl

/-- A block is split into what it was joined from. The two halves lie at fixed places of the
block. -/
theorem split_join (pair : Block 4 × Block 4) : split (join pair) = pair :=
  Prod.ext (slice_append_front pair.1 pair.2) (slice_append_back pair.1 pair.2)

/-- The halves of a block make it up. With the theorem before, the two are inverse to each
other. -/
theorem join_split (block : Block 8) : join (split block) = block :=
  @append_slices 4 4 block

/-! ## Inverse permutations -/

/-- The initial permutation takes the last one back. The tables are compared place by place. -/
theorem initial_back (block : Block 8) :
    (blockPermute IP (blockPermute IPInv block : Block 8) : Block 8) = block := by
  apply bits_injective
  rw [block_permute, block_permute]
  exact permute_back IPInv.places IP.places (bits block) (table_within IP) (by decide)

/-- The last permutation takes the initial one back. So the two permutations around the rounds
cancel in both orders. -/
theorem last_back (block : Block 8) :
    (blockPermute IPInv (blockPermute IP block : Block 8) : Block 8) = block := by
  apply bits_injective
  rw [block_permute, block_permute]
  exact permute_back IP.places IPInv.places (bits block) (table_within IPInv) (by decide)

/-! ## Decryption -/

/-- The subkeys of decryption are those of encryption from the last to the first. `fromEnd` counts
the rounds down. -/
theorem sub_keys_reverse (k : KeySchedule) :
    subKeys (fun i => subKeyAt k (fromEnd i)) = (subKeys (subKeyAt k)).reverse := by
  have order : (List.finRange 16).map fromEnd = (List.finRange 16).reverse := by decide
  rw [subKeys, subKeys, ← List.map_reverse, ← order, List.map_map]
  rfl

/-- The reversed subkeys take the cipher back. Proof: the initial and the last permutation cancel,
and the network runs back over the reversed keys. -/
theorem crypt_back (first second : Fin 16 → Block 6) (message : Block 8)
    (reversed : subKeys second = (subKeys first).reverse) :
    desCrypt second (desCrypt first message) = message := by
  rw [des_crypt second, des_crypt first, initial_back, split_join, reversed,
    rounds_back combine f combine_cancel, Prod.swap_swap, join_split, last_back]

/-- Decryption inverts encryption and encryption inverts decryption, under every key schedule.
Proof: both are one Feistel network with the subkeys in opposite orders, between permutations that
take each other back. -/
theorem decryption_inverts (m : Block 8) (k : KeySchedule) :
    desDecrypt (desEncrypt m k) k = m ∧ desEncrypt (desDecrypt m k) k = m := by
  constructor
  · exact crypt_back _ _ m (sub_keys_reverse k)
  · apply crypt_back _ _ m
    rw [sub_keys_reverse, List.reverse_reverse]

end EffiLib.Des
