import Mathlib

/-!
# Reflected shift registers

A register of any width moves down one bit at a time and takes in a polynomial
whenever a one falls out. The step is linear over exclusive or, so eight steps are
one lookup for the low byte and a move of the rest, which is what a table of 256
words computes.

A polynomial with its top bit set makes the step injective. As long as no more
bytes are fed than the register holds, the result is a fixed number of steps from
the exclusive or of the register and the bytes, so it determines them.
-/

namespace EffiLib.ShiftRegister

variable {width : Nat} (poly : BitVec width)

/-- Move down one bit; the polynomial is taken in when the low bit was one. It is linear over
exclusive or. -/
def shift (register : BitVec width) : BitVec width :=
  if register.getLsbD 0 then (register >>> 1) ^^^ poly else register >>> 1

/-- Feed one byte: it enters at the low end, then eight bits move out. A table of 256 words
replaces the eight shifts. -/
def feed (register : BitVec width) (byte : BitVec 8) : BitVec width :=
  (shift poly)^[8] (register ^^^ byte.setWidth width)

/-- Feed the bytes of a list from first to last. The register in front is the seed of a
checksum. -/
def feedAll (register : BitVec width) (bytes : List (BitVec 8)) : BitVec width :=
  bytes.foldl (feed poly) register

/-- No byte leaves the register. -/
@[simp] theorem feed_all_nil (register : BitVec width) : feedAll poly register [] = register := rfl

/-- The first byte is fed first. -/
@[simp] theorem feed_all_cons (register : BitVec width) (byte : BitVec 8) (rest : List (BitVec 8)) :
    feedAll poly register (byte :: rest) = feedAll poly (feed poly register byte) rest := rfl

/-- Bytes may be fed in two portions. Proof: it is a fold over the bytes. -/
theorem feed_all_append (register : BitVec width) (front back : List (BitVec 8)) :
    feedAll poly register (front ++ back) = feedAll poly (feedAll poly register front) back :=
  List.foldl_append

/-- The step is linear. The low bits decide which polynomials are taken in, and equal ones
cancel. -/
theorem shift_xor (left right : BitVec width) :
    shift poly (left ^^^ right) = shift poly left ^^^ shift poly right := by
  simp only [shift, BitVec.getLsbD_xor, BitVec.ushiftRight_xor_distrib]
  cases left.getLsbD 0 <;> cases right.getLsbD 0
  case false.false => simp
  case false.true => simp [BitVec.xor_assoc]
  case true.false => simp [BitVec.xor_assoc, BitVec.xor_comm poly]
  case true.true =>
    simp only [Bool.xor_self, Bool.false_eq_true, if_false, if_true]
    rw [BitVec.xor_assoc, BitVec.xor_comm _ poly, ← BitVec.xor_assoc poly, BitVec.xor_self,
      BitVec.zero_xor]

/-- Any number of steps distributes over the exclusive or. Proof: by induction on their number. -/
theorem shifts_xor (count : Nat) (left right : BitVec width) :
    (shift poly)^[count] (left ^^^ right) =
      (shift poly)^[count] left ^^^ (shift poly)^[count] right := by
  induction count generalizing left right with
  | zero => rfl
  | succ count inductionHypothesis =>
    rw [Function.iterate_succ_apply, Function.iterate_succ_apply, Function.iterate_succ_apply,
      shift_xor, inductionHypothesis]

/-- While only zeros fall out, the register just moves down. Proof: by induction on their
number. -/
theorem shifts_clear (count : Nat) (register : BitVec width)
    (clear : ∀ position < count, register.getLsbD position = false) :
    (shift poly)^[count] register = register >>> count := by
  induction count with
  | zero => simp
  | succ count inductionHypothesis =>
    rw [Function.iterate_succ_apply', inductionHypothesis fun position early =>
      clear position (Nat.lt_succ_of_lt early)]
    have low : (register >>> count).getLsbD 0 = false := by
      simpa using clear count (Nat.lt_succ_self count)
    rw [shift, low, if_neg Bool.false_ne_true, BitVec.shiftRight_add]

/-- Shifting up and down again loses nothing that fits. The top bits are zero then. -/
theorem raised_lowered (value : BitVec width) (count : Nat)
    (fits : value.toNat < 2 ^ (width - count)) :
    (value <<< count) >>> count = value := by
  apply BitVec.eq_of_getLsbD_eq
  intro position inside
  rw [BitVec.getLsbD_ushiftRight, BitVec.getLsbD_shiftLeft]
  by_cases high : count + position < width
  · simp [high]
  · have absent : value.getLsbD position = false :=
      Nat.testBit_lt_two_pow (Nat.lt_of_lt_of_le fits (Nat.pow_le_pow_right (by omega) (by omega)))
    simp [high, absent]

/-- A raised value that fits comes down in as many steps. None of the steps drops a bit. -/
theorem shifts_raised (count : Nat) (value : BitVec width)
    (fits : value.toNat < 2 ^ (width - count)) :
    (shift poly)^[count] (value <<< count) = value := by
  have clear (position : Nat) (early : position < count) :
      (value <<< count).getLsbD position = false := by simp [early]
  rw [shifts_clear poly count _ clear, raised_lowered value count fits]

/-- A value is its low byte under its raised rest. The low byte of the rest is zero. -/
theorem low_byte_split (value : BitVec width) :
    value = BitVec.ofNat width (value.toNat % 256) ^^^ ((value >>> 8) <<< 8) := by
  apply BitVec.eq_of_getLsbD_eq
  intro position inside
  have byte : (value.toNat % 2 ^ 8).testBit position =
      (decide (position < 8) && value.toNat.testBit position) := Nat.testBit_mod_two_pow _ _ _
  rw [BitVec.getLsbD_xor, BitVec.getLsbD_ofNat, BitVec.getLsbD_shiftLeft,
    BitVec.getLsbD_ushiftRight, show (256 : Nat) = 2 ^ 8 from rfl, byte]
  by_cases early : position < 8
  · simp [early, inside, BitVec.getLsbD]
  · simp [early, inside, Nat.add_sub_of_le (Nat.le_of_not_lt early)]

/-- Feeding a byte is one lookup for the low byte and a move of the rest. It is the step of a
program that keeps a table of 256 entries. -/
theorem feed_lookup (wide : 8 ≤ width) (register : BitVec width) (byte : BitVec 8) :
    feed poly register byte = (register >>> 8) ^^^
      (shift poly)^[8] (BitVec.ofNat width ((register ^^^ byte.setWidth width).toNat % 256)) := by
  have lowered : (register ^^^ byte.setWidth width) >>> 8 = register >>> 8 := by
    apply BitVec.eq_of_getLsbD_eq
    intro position inside
    simp
  have fits : (register >>> 8).toNat < 2 ^ (width - 8) := by
    rw [BitVec.toNat_ushiftRight, Nat.shiftRight_eq_div_pow]
    apply Nat.div_lt_of_lt_mul
    rw [← pow_add, Nat.add_sub_of_le wide]
    exact register.isLt
  rw [feed]
  conv => lhs; rw [low_byte_split (register ^^^ byte.setWidth width)]
  rw [shifts_xor, lowered, shifts_raised poly 8 _ fits, BitVec.xor_comm]

/-- When the polynomial has its top bit set, that bit of the result tells what fell
out, so the step is injective. -/
theorem shift_injective (top : poly.getLsbD (width - 1) = true) :
    Function.Injective (shift poly) := by
  have positive : 0 < width := by
    rcases Nat.eq_zero_or_pos width with rfl | positive
    · simp at top
    · exact positive
  have marked (register : BitVec width) :
      (shift poly register).getLsbD (width - 1) = register.getLsbD 0 := by
    have moved : (register >>> 1).getLsbD (width - 1) = false := by
      rw [BitVec.getLsbD_ushiftRight]
      exact BitVec.getLsbD_of_ge _ _ (by omega)
    cases low : register.getLsbD 0 <;> simp [shift, low, moved, top]
  intro left right same
  have low : left.getLsbD 0 = right.getLsbD 0 := by
    rw [← marked left, ← marked right, same]
  have rest : left >>> 1 = right >>> 1 := by
    cases found : right.getLsbD 0 <;> rw [found] at low <;> simpa [shift, low, found] using same
  apply BitVec.eq_of_getLsbD_eq
  intro position inside
  rcases position with _ | position
  · exact low
  · have bit := congrArg (fun value => value.getLsbD position) rest
    simpa [Nat.add_comm] using bit

/-- Feeding equal bytes keeps different registers apart. Proof: each step is injective, because
the top bit tells whether the polynomial was taken in. -/
theorem feed_all_injective (top : poly.getLsbD (width - 1) = true) (bytes : List (BitVec 8))
    (left right : BitVec width)
    (same : feedAll poly left bytes = feedAll poly right bytes) : left = right := by
  induction bytes generalizing left right with
  | nil => exact same
  | cons byte rest inductionHypothesis =>
    have fed := (shift_injective poly top).iterate 8 (inductionHypothesis _ _ same)
    exact (BitVec.xor_left_inj _).mp fed

/-- The bytes of a list at the places where they enter the register. The first byte is the
lowest. -/
def packed : List (BitVec 8) → BitVec width
  | [] => 0
  | byte :: rest => byte.setWidth width ^^^ (packed rest <<< 8)

/-- The packed bytes need no more than their own bits. So bytes that fit into the register lie
below its top. -/
theorem packed_bound (bytes : List (BitVec 8)) (room : 8 * bytes.length ≤ width) :
    (packed bytes : BitVec width).toNat < 2 ^ (8 * bytes.length) := by
  induction bytes with
  | nil => simp [packed]
  | cons byte rest inductionHypothesis =>
    rw [List.length_cons] at room ⊢
    have restBound := inductionHypothesis (by omega)
    have wider : 2 ^ (8 * (rest.length + 1)) = 2 ^ (8 * rest.length) * 2 ^ 8 := by
      rw [← pow_add, Nat.mul_succ]
    rw [packed, BitVec.toNat_xor]
    apply Nat.xor_lt_two_pow
    · have small : (byte.setWidth width).toNat ≤ byte.toNat := by
        rw [BitVec.toNat_setWidth]
        exact Nat.mod_le _ _
      have atLeast : 2 ^ 8 ≤ 2 ^ (8 * (rest.length + 1)) :=
        Nat.pow_le_pow_right (by omega) (by omega)
      exact Nat.lt_of_le_of_lt small (Nat.lt_of_lt_of_le byte.isLt atLeast)
    · rw [BitVec.toNat_shiftLeft, Nat.shiftLeft_eq]
      refine Nat.lt_of_le_of_lt (Nat.mod_le _ _) ?_
      rw [wider]
      exact Nat.mul_lt_mul_of_pos_right restBound (by decide)

/-- The packed rest fits above the first byte. So the first byte can be put below it. -/
theorem packed_fits (rest : List (BitVec 8)) (room : 8 * (rest.length + 1) ≤ width) :
    (packed rest : BitVec width).toNat < 2 ^ (width - 8) :=
  Nat.lt_of_lt_of_le (packed_bound rest (by omega)) (Nat.pow_le_pow_right (by omega) (by omega))

/-- Bytes that fit in the register are fed in one go. The induction is on the list; each
byte's eight steps bring the packed rest down to where the next byte enters. -/
theorem feed_all_packed (bytes : List (BitVec 8)) (room : 8 * bytes.length ≤ width)
    (register : BitVec width) :
    feedAll poly register bytes = (shift poly)^[8 * bytes.length] (register ^^^ packed bytes) := by
  induction bytes generalizing register with
  | nil => simp [packed]
  | cons byte rest inductionHypothesis =>
    rw [List.length_cons] at room
    have raised := shifts_raised poly 8 (packed rest) (packed_fits rest room)
    rw [feed_all_cons, inductionHypothesis (by omega), List.length_cons, Nat.mul_succ,
      Function.iterate_add_apply, packed, ← BitVec.xor_assoc, shifts_xor poly 8, raised, feed]

/-- Packing loses nothing that fits. A checksum that is determined by the packed bytes therefore
determines the bytes. -/
theorem packed_injective (left right : List (BitVec 8)) (lengths : left.length = right.length)
    (room : 8 * left.length ≤ width)
    (same : (packed left : BitVec width) = packed right) : left = right := by
  induction left generalizing right with
  | nil => exact (List.length_eq_zero_iff.mp lengths.symm).symm
  | cons byte rest inductionHypothesis =>
    cases right with
    | nil => simp at lengths
    | cons other others =>
      simp only [List.length_cons, Nat.add_right_cancel_iff] at lengths room
      have low : byte = other := by
        apply BitVec.eq_of_getLsbD_eq
        intro position early
        have bit := congrArg (fun value => value.getLsbD position) same
        have inside : position < width := by omega
        simpa [packed, early, inside] using bit
      subst low
      have raised : (packed rest : BitVec width) <<< 8 = packed others <<< 8 :=
        (BitVec.xor_right_inj _).mp same
      have lowered : ((packed rest : BitVec width) <<< 8) >>> 8 = (packed others <<< 8) >>> 8 := by
        rw [raised]
      rw [raised_lowered _ 8 (packed_fits rest room),
        raised_lowered _ 8 (packed_fits others (lengths ▸ room))] at lowered
      rw [inductionHypothesis others lengths (by omega) lowered]

/-- Two lists of one length that agree outside some window of consecutive places, and
nowhere else need to. -/
def DifferWithin {β : Type} (window : Nat) (left right : List β) : Prop :=
  left.length = right.length ∧ left ≠ right ∧ ∃ start, ∀ position,
    position < start ∨ start + window ≤ position → left[position]? = right[position]?

/-- An injective change of every element keeps the window. It is used for bytes read as bit
vectors. -/
theorem DifferWithin.map {β γ : Type} {window : Nat} {left right : List β}
    (differ : DifferWithin window left right) (change : β → γ)
    (injective : Function.Injective change) :
    DifferWithin window (left.map change) (right.map change) := by
  obtain ⟨lengths, different, start, outside⟩ := differ
  refine ⟨by simp [lengths], fun same => different (List.map_injective_iff.mpr injective same),
    start, fun position away => ?_⟩
  rw [List.getElem?_map, List.getElem?_map, outside position away]

/-- Such lists have a common front and back around two different windows. Proof: the window is
where the lists may differ, and both are cut at its ends. -/
theorem differ_within_split {β : Type} (window : Nat) (left right : List β)
    (differ : DifferWithin window left right) :
    ∃ front back first second, left = front ++ first ++ back ∧ right = front ++ second ++ back ∧
      first.length = second.length ∧ first.length ≤ window ∧ first ≠ second := by
  obtain ⟨lengths, different, start, outside⟩ := differ
  have front : right.take start = left.take start := by
    apply List.ext_getElem?
    intro position
    rw [List.getElem?_take, List.getElem?_take]
    split
    · exact (outside position (Or.inl ‹_›)).symm
    · rfl
  have back : right.drop (start + window) = left.drop (start + window) := by
    apply List.ext_getElem?
    intro position
    rw [List.getElem?_drop, List.getElem?_drop]
    exact (outside _ (Or.inr (Nat.le_add_right _ _))).symm
  have parts (whole : List β) :
      whole = whole.take start ++ (whole.drop start).take window ++
        whole.drop (start + window) := by
    rw [← List.drop_drop, List.append_assoc, List.take_append_drop, List.take_append_drop]
  have leftParts := parts left
  have rightParts := parts right
  rw [front, back] at rightParts
  refine ⟨_, _, _, _, leftParts, rightParts, ?_, List.length_take_le _ _, ?_⟩
  · rw [List.length_take, List.length_take, List.length_drop, List.length_drop, lengths]
  · intro same
    rw [← same, ← leftParts] at rightParts
    exact different rightParts.symm

/-- Damage within a window that fits in the register is always seen. Proof: the common front leads
to one register, the windows to different ones, and the common back keeps them apart. -/
theorem burst_detected (top : poly.getLsbD (width - 1) = true) (window : Nat)
    (room : 8 * window ≤ width) (register : BitVec width) (left right : List (BitVec 8))
    (differ : DifferWithin window left right) :
    feedAll poly register left ≠ feedAll poly register right := by
  obtain ⟨front, back, first, second, rfl, rfl, lengths, short, different⟩ :=
    differ_within_split window left right differ
  intro same
  simp only [feed_all_append] at same
  have inside := feed_all_injective poly top back _ _ same
  rw [feed_all_packed poly first (by omega), feed_all_packed poly second (by omega), lengths]
    at inside
  have fed := (shift_injective poly top).iterate (8 * second.length) inside
  exact different (packed_injective first second lengths (by omega)
    ((BitVec.xor_right_inj _).mp fed))

end EffiLib.ShiftRegister
