import EffiLib.Des.Rounds

/-!
# The key schedule

A rotation moves every bit one place to the left in its half, so it is a permutation of the
56 chosen key bits. The subkey of a round is a permuted choice from the rotations so far,
and nothing that a later round writes.
-/

namespace EffiLib.Des

open BitBlocks

variable {size width : Nat}

/-! ## Rotation -/

/-- One bit of a byte chosen anew. The rotation of the source writes the bits that leave a half
so, with a branch. -/
theorem choose_bit (ch : uChar) (bit : Bool) (bitPos place : Nat) (position : bitPos < 8)
    (inside : place < 8) :
    (if bit = true then setBit ch bitPos else resetBit ch bitPos).toBitVec.getMsbD place =
      if place = bitPos then bit else ch.toBitVec.getMsbD place := by
  cases bit with
  | true =>
    rw [if_pos rfl, set_bit _ _ _ position]
    by_cases here : place = bitPos <;> simp [here]
  | false =>
    rw [if_neg (by decide), reset_bit _ _ _ position inside]
    by_cases here : place = bitPos <;> simp [here]

/-- A byte shifted left by one, with one bit of another byte behind it. Masking and shifting are
as in the source. -/
theorem shift_in (ch next : uChar) (source place : Nat) (chosen : source < 8) (inside : place < 8) :
    ((ch <<< 1) ||| ((next &&& (1 <<< UInt8.ofNat (7 - source))) >>>
        UInt8.ofNat (7 - source))).toBitVec.getMsbD place =
      if place < 7 then ch.toBitVec.getMsbD (place + 1) else next.toBitVec.getMsbD source := by
  have shifted : (ch <<< 1).toBitVec.getMsbD place = ch.toBitVec.getMsbD (place + 1) := by
    rw [UInt8.toBitVec_shiftLeft]
    exact BitVec.getMsbD_shiftLeft _ 1
  have all : ∀ source : Fin 8, ∀ bit : Bool, ∀ place : Fin 8,
      ((if bit then BitVec.twoPow 8 (7 - source) else 0#8) >>>
        ((UInt8.ofNat (7 - source)).toBitVec % 8)).getMsbD place =
          (decide (place.val = 7) && bit) := by decide
  have moved : ((next &&& (1 <<< UInt8.ofNat (7 - source))) >>>
      UInt8.ofNat (7 - source)).toBitVec.getMsbD place =
        (decide (place = 7) && next.toBitVec.getMsbD source) := by
    rw [UInt8.toBitVec_shiftRight, UInt8.toBitVec_and, mask_power source chosen,
      BitVec.and_twoPow, all ⟨source, chosen⟩ _ ⟨place, inside⟩, BitVec.getMsbD_eq_getLsbD]
    simp only [chosen, decide_true, Bool.true_and]
  rw [UInt8.toBitVec_or, BitVec.getMsbD_or, shifted, moved]
  by_cases early : place < 7
  · have apart : place ≠ 7 := Nat.ne_of_lt early
    simp only [early, if_true, apart, decide_false, Bool.false_and, Bool.or_false]
  · have last : place = 7 := by omega
    have outside : ch.toBitVec.getMsbD (place + 1) = false := BitVec.getMsbD_of_ge _ _ (by omega)
    rw [if_neg early, outside, decide_eq_true last, Bool.true_and, Bool.false_or]

/-- In a block, a shifted byte takes the bits behind its own and one bit of another byte. The bit
of the other byte comes to the last place. -/
theorem bits_put_shift (array : Block size) (index other : Fin size) (source place : Nat)
    (chosen : source < 8) (inside : place < 8 * size) :
    (bits (put array index ((array.get index <<< 1) ||| ((array.get other &&&
        (1 <<< UInt8.ofNat (7 - source))) >>> UInt8.ofNat (7 - source))))).getMsbD place =
      if place / 8 = index then
        if place % 8 < 7 then (bits array).getMsbD (place + 1)
        else (bits array).getMsbD (8 * other + source)
      else (bits array).getMsbD place := by
  rw [bits_put _ _ _ _ inside, shift_in _ _ _ _ chosen (Nat.mod_lt _ (by decide))]
  by_cases here : place / 8 = index
  · rw [if_pos here, if_pos here, bits_byte _ _ _ chosen]
    by_cases early : place % 8 < 7
    · have behind : place + 1 = 8 * index + (place % 8 + 1) := by omega
      rw [if_pos early, if_pos early, behind, bits_byte _ _ _ (by omega)]
    · rw [if_neg early, if_neg early]
  · rw [if_neg here, if_neg here]

/-- After `i` steps of the loop in `blockLeftRotateHalves` the first `i` bytes are shifted. The
other bytes are as before. -/
def Shifted (cd : Block 7) (i : Nat) (state : Block 7) : Prop :=
  ∀ place < 56, (bits state).getMsbD place =
    (bits cd).getMsbD (if place < 8 * i then place + 1 else place)

/-- One byte takes its own lower bits and the highest bit of the next byte. The next byte has not
been shifted yet. -/
theorem shift_step (cd state : Block 7) (i : Fin 6) (shifted : Shifted cd i state) :
    Shifted cd (i + 1) (put state i.castSucc ((state.get i.castSucc <<< 1) |||
      ((state.get i.succ &&& 0x80) >>> 7))) := by
  intro place inside
  have byte := bits_put_shift state i.castSucc i.succ 0 place (by decide) inside
  refine byte.trans ?_
  by_cases here : place / 8 = i.castSucc
  · have unchanged : ¬ place + 1 < 8 * i.val := by simp at here; omega
    have done : place < 8 * (i.val + 1) := by simp at here; omega
    rw [if_pos here, if_pos done]
    by_cases early : place % 8 < 7
    · rw [if_pos early, shifted _ (by simp at here; omega), if_neg unchanged]
    · have next : 8 * i.succ.val + 0 = place + 1 := by simp at here ⊢; omega
      rw [if_neg early, next, shifted _ (by omega), if_neg unchanged]
  · have same : place < 8 * (i + 1) ↔ place < 8 * i.val := by simp at here; omega
    rw [if_neg here, shifted place inside]
    simp only [same]

/-- The place whose bit comes to a place, counted from one. The two halves are 28 bits each. -/
def rotation (place : Fin 56) : Nat :=
  if place.val = 27 then 1 else if place.val = 55 then 29 else place + 2

/-- The last byte takes the bit that stood in front of the second half. It stands in byte 3, which
has been shifted by then. -/
theorem shift_last (cd bytes : Block 7) (shifted : Shifted cd 6 bytes) (place : Nat)
    (inside : place < 56) :
    (bits (put bytes 6 ((bytes.get 6 <<< 1) ||| ((bytes.get 3 &&& 0x10) >>> 4)))).getMsbD place =
      (bits cd).getMsbD (if place = 55 then 28 else place + 1) := by
  have byte : (bits (put bytes 6 ((bytes.get 6 <<< 1) |||
      ((bytes.get 3 &&& 0x10) >>> 4)))).getMsbD place =
        if place / 8 = 6 then
          if place % 8 < 7 then (bits bytes).getMsbD (place + 1) else (bits bytes).getMsbD 27
        else (bits bytes).getMsbD place :=
    bits_put_shift bytes 6 3 3 place (by decide) inside
  rw [byte]
  by_cases here : place / 8 = 6
  · by_cases early : place % 8 < 7
    · rw [if_pos here, if_pos early, shifted _ (by omega), if_neg (by omega), if_neg (by omega)]
    · rw [if_pos here, if_neg early, shifted _ (by decide), if_pos (by decide), if_pos (by omega)]
  · rw [if_neg here, shifted place inside, if_pos (by omega), if_neg (by omega)]

/-- A bit written at the end of the first half replaces that bit and no other. Place 27 is the
last of the first half and lies in the middle of byte 3. -/
theorem close_first_half (whole : Block 7) (bit : Bool) (place : Nat) (inside : place < 56) :
    (bits (put whole 3 (if bit = true then setBit (whole.get 3) 3
      else resetBit (whole.get 3) 3))).getMsbD place =
        if place = 27 then bit else (bits whole).getMsbD place := by
  rw [bits_put _ _ _ _ inside, choose_bit _ _ _ _ (by decide) (Nat.mod_lt _ (by decide)),
    bits_get _ _ inside]
  change (if place / 8 = 3 then _ else _) = _
  by_cases here : place / 8 = 3
  · have byte : (3 : Fin 7) = ⟨place / 8, byte_inside inside⟩ := Fin.ext here.symm
    have same : place % 8 = 3 ↔ place = 27 := by omega
    rw [if_pos here]
    simp only [same, byte]
  · have other : place ≠ 27 := by omega
    rw [if_neg here, if_neg other]

/-- `blockLeftRotateHalves` moves every bit one place to the left in its half. Proof: the loop
shifts the bytes through, and the two bits that go round are put right behind it. -/
theorem block_left_rotate_halves (cd : Block 7) :
    bits (blockLeftRotateHalves cd) = permute rotation (bits cd) := by
  let bytes := loop 6 (fun (cd : Block 7) i =>
    put cd i.castSucc ((cd.get i.castSucc <<< 1) ||| ((cd.get i.succ &&& 0x80) >>> 7))) cd
  let whole := put bytes 6 ((bytes.get 6 <<< 1) ||| ((bytes.get 3 &&& 0x10) >>> 4))
  have shifted : Shifted cd 6 bytes := by
    apply loop_rule (Shifted cd)
    · intro place inside
      rw [if_neg (Nat.not_lt_zero _)]
    · exact fun i state => shift_step cd state i
  have test : (cd.get 0 &&& 0x80 != 0) = (bits cd).getMsbD 0 :=
    (mask_bit _ 0 (by decide)).trans (bits_byte cd 0 0 (by decide)).symm
  apply BitVec.eq_of_getMsbD_eq
  intro place inside
  change (bits (put whole 3 (if (cd.get 0 &&& 0x80 != 0) = true then setBit (whole.get 3) 3
    else resetBit (whole.get 3) 3))).getMsbD place = _
  rw [close_first_half whole _ place inside, test, shift_last cd bytes shifted place inside,
    permute_get rotation _ ⟨place, inside⟩, rotation]
  by_cases first : place = 27
  · rw [if_pos first, if_pos first]
  · by_cases final : place = 55
    · rw [if_neg first, if_pos final, if_neg first, if_pos final]
    · rw [if_neg first, if_neg final, if_neg first, if_neg final]
      rfl

/-! ## Subkeys -/

/-- `CiDi` before the round with this number. It is what is left of the key when the rotations are
applied one after the other. -/
def ciDi (key : Block 8) : Nat → Block 7
  | 0 => blockPermute PC1 key
  | i + 1 => rotateRound (ciDi key i) i

/-- Before round `i` the subkeys below `i` are in their places. It is the invariant of the
loop. -/
def Scheduled (key : Block 8) (i : Nat) (state : Block 7 × KeySchedule) : Prop :=
  state.1 = ciDi key i ∧
  ∀ j : Fin 16, j < i → subKeyAt state.2 j = blockPermute PC2 (ciDi key (j + 1))

/-- A round adds its subkey behind the others. The subkeys in front stay, since the rounds write
apart from each other. -/
theorem key_round (key : Block 8) (state : Block 7 × KeySchedule) (i : Fin 16)
    (scheduled : Scheduled key i state) : Scheduled key (i + 1) (keyRound state i) := by
  obtain ⟨rotated, earlier⟩ := scheduled
  have next : (keyRound state i).1 = ciDi key (i + 1) := by rw [keyRound, ciDi, rotated]
  have stored : (keyRound state i).2 =
      splice state.2 (6 * i) (blockPermute PC2 (keyRound state i).1 : Block 6) := by rw [keyRound]
  refine ⟨next, ?_⟩
  intro j below
  rw [subKeyAt, stored, next]
  rcases Nat.lt_succ_iff_lt_or_eq.mp below with before | last
  · rw [slice_splice_apart _ _ _ _ _ (by omega)]
    exact earlier j before
  · have same : j = i := Fin.ext last
    rw [same, slice_splice]

/-- With memory granted the schedule holds the sixteen subkeys. Without memory the source returns
a null pointer and there is no schedule. -/
theorem key_schedule (key : Block 8) :
    ∃ k, desKeySchedule true key = some k ∧
      ∀ i : Fin 16, subKeyAt k i = blockPermute PC2 (ciDi key (i + 1)) := by
  have all : Scheduled key 16 (loop 16 keyRound (blockPermute PC1 key, Vector.replicate 96 0)) := by
    apply loop_rule (Scheduled key)
    · exact ⟨rfl, fun j below => absurd below (Nat.not_lt_zero _)⟩
    · exact fun i state => key_round key state i
  exact ⟨_, rfl, fun i => all.2 i i.isLt⟩

end EffiLib.Des
