import Mathlib

/-!
# Blocks of bytes as bit vectors

A block is an array of bytes of known length. Its bits are counted from the highest bit of
the first byte, so two blocks with the same bits are one block. Loops over a block carry an
invariant that counts the steps done.
-/

namespace EffiLib.BitBlocks

universe u

/-- Bytes of known number. The length is in the type, so that an index outside cannot be
written. -/
abbrev Block (size : Nat) := Vector UInt8 size

variable {size width length : Nat}

/-! ## Loops -/

/-- Run a body for each index in order. It is the counting loop of C whose bound is known. -/
def loop {σ : Type u} (count : Nat) (body : σ → Fin count → σ) (start : σ) : σ :=
  (List.finRange count).foldl body start

/-- What holds at the start and is kept by each step holds at the end. The invariant counts the
steps that are done. Proof: by induction on their number. -/
theorem loop_rule {σ : Type u} {count : Nat} (holds : Nat → σ → Prop)
    (body : σ → Fin count → σ) (start : σ) (begins : holds 0 start)
    (keeps : ∀ (i : Fin count) (state : σ), holds i state → holds (i + 1) (body state i)) :
    holds count (loop count body start) := by
  induction count with
  | zero => exact begins
  | succ count inductionHypothesis =>
    have earlier : holds count (loop count (fun state i => body state i.castSucc) start) :=
      inductionHypothesis _ fun i state => keeps i.castSucc state
    have last : loop (count + 1) body start =
        body (loop count (fun state i => body state i.castSucc) start) (Fin.last count) := by
      rw [loop, List.finRange_succ_last, List.foldl_append, List.foldl_map]
      rfl
    rw [last]
    exact keeps (Fin.last count) _ earlier

/-! ## Bits -/

/-- The byte that holds a bit. It is the index at which the byte is read. -/
theorem byte_inside {place : Nat} (inside : place < 8 * size) : place / 8 < size := by omega

/-- The byte that holds a place of a block. The same for a place that carries its bound. -/
theorem place_inside (place : Fin (8 * size)) : place / 8 < size := byte_inside place.isLt

/-- The bits of a block, the highest bit of the first byte in front. In this order a permutation
table of the cipher counts its places. -/
def bits (block : Block size) : BitVec (8 * size) :=
  BitVec.ofFnBE fun place =>
    (block.get ⟨place / 8, place_inside place⟩).toBitVec.getMsbD (place % 8)

/-- One bit of a block. Bits are counted from the highest of the first byte. -/
theorem bits_get (block : Block size) (place : Nat) (inside : place < 8 * size) :
    (bits block).getMsbD place =
      (block.get ⟨place / 8, byte_inside inside⟩).toBitVec.getMsbD (place % 8) := by
  rw [bits, BitVec.getMsbD_ofFnBE, dif_pos inside]

/-- One bit of one byte of a block. The byte is given by its index and the bit by its place in the
byte. -/
theorem bits_byte (block : Block size) (index : Fin size) (place : Nat) (inside : place < 8) :
    (bits block).getMsbD (8 * index + place) = (block.get index).toBitVec.getMsbD place := by
  rw [bits_get block _ (by omega)]
  congr 3
  · exact Fin.ext (by simp only; omega)
  · omega

/-- A cleared block has no bit set. Every byte of it is zero. -/
theorem bits_clear (place : Nat) :
    (bits (Vector.replicate size (0 : UInt8))).getMsbD place = false := by
  by_cases inside : place < 8 * size
  · have zero : (Vector.replicate size (0 : UInt8)).get ⟨place / 8, byte_inside inside⟩ = 0 :=
      Vector.getElem_replicate _
    rw [bits_get _ _ inside, zero]
    exact BitVec.getMsbD_zero
  · exact BitVec.getMsbD_of_ge _ _ (Nat.le_of_not_lt inside)

/-- A block is known by its bits. So two computations are compared on bits instead of bytes. -/
theorem bits_injective (left right : Block size) (same : bits left = bits right) :
    left = right := by
  apply Vector.ext
  intro index inside
  apply UInt8.toBitVec_inj.mp
  apply BitVec.eq_of_getMsbD_eq
  intro place below
  have read := congrArg (fun whole => whole.getMsbD (8 * index + place)) same
  rw [bits_byte left ⟨index, inside⟩ place below, bits_byte right ⟨index, inside⟩ place below]
    at read
  exact read

/-! ## Operations on whole blocks -/

/-- The exclusive or of two blocks, byte by byte. It is the exclusive or of the bits. -/
def combine (left right : Block size) : Block size := Vector.zipWith (· ^^^ ·) left right

/-- The complement of every byte. It is the complement of the bits. -/
def complement (block : Block size) : Block size := block.map (~~~ ·)

/-- One byte of an exclusive or. It reduces facts about blocks to facts about bytes. -/
theorem combine_get (left right : Block size) (index : Fin size) :
    (combine left right).get index = left.get index ^^^ right.get index :=
  Vector.getElem_zipWith _

/-- One byte of a complement. It reduces facts about blocks to facts about bytes. -/
theorem complement_get (block : Block size) (index : Fin size) :
    (complement block).get index = ~~~ block.get index :=
  Vector.getElem_map _ _

/-- The exclusive or acts on the bits. So a cipher that works on bytes can be compared with one on
words. -/
theorem bits_combine (left right : Block size) :
    bits (combine left right) = bits left ^^^ bits right := by
  apply BitVec.eq_of_getMsbD_eq
  intro place inside
  rw [BitVec.getMsbD_xor, bits_get _ _ inside, bits_get _ _ inside, bits_get _ _ inside,
    combine_get, UInt8.toBitVec_xor, BitVec.getMsbD_xor]

/-- The complement acts on the bits. So does the comparison of complements. -/
theorem bits_complement (block : Block size) : bits (complement block) = ~~~ bits block := by
  apply BitVec.eq_of_getMsbD_eq
  intro place inside
  rw [BitVec.getMsbD_not, bits_get _ _ inside, bits_get _ _ inside, complement_get,
    UInt8.toBitVec_not, BitVec.getMsbD_not]
  simp only [inside, Nat.mod_lt place (by decide : 0 < 8)]

/-- The same block twice cancels. A network that adds its rounds so can be run backwards. -/
theorem combine_cancel (left right : Block size) : combine (combine left right) right = left := by
  apply bits_injective
  rw [bits_combine, bits_combine, BitVec.xor_assoc, BitVec.xor_self, BitVec.xor_zero]

/-- Two complements cancel in an exclusive or. A complemented half meets a complemented key so. -/
theorem combine_complements (left right : Block size) :
    combine (complement left) (complement right) = combine left right := by
  apply bits_injective
  rw [bits_combine, bits_combine, bits_complement, bits_complement, ← BitVec.not_xor_left,
    ← BitVec.not_xor_right, BitVec.not_not]

/-- One complement stays in an exclusive or. A complemented half meets an unchanged value so. -/
theorem combine_complement (left right : Block size) :
    combine (complement left) right = complement (combine left right) := by
  apply bits_injective
  rw [bits_combine, bits_complement, bits_complement, bits_combine, BitVec.not_xor_left]

/-! ## Parts of a block -/

/-- A byte of a part is one of the block. It is the index at which the byte is read. -/
theorem part_inside {offset : Nat} (inside : offset + width ≤ size) (index : Fin width) :
    offset + index < size := by omega

/-- The part of a block from some byte on. The part lies inside the block, which is part of its
type. -/
def slice (block : Block size) (offset : Nat) (inside : offset + width ≤ size) : Block width :=
  Vector.ofFn fun index => block.get ⟨offset + index, part_inside inside index⟩

/-- A block with one part replaced. The bytes outside the part stay. -/
def splice (block : Block size) (offset : Nat) (part : Block width) : Block size :=
  Vector.ofFn fun index =>
    if inside : offset ≤ index ∧ index < offset + width then
      part.get ⟨index - offset, by omega⟩
    else block.get index

/-- One byte of a part. It lies as much further in the block as the part begins. -/
@[simp] theorem slice_get (block : Block size) (offset : Nat) (inside : offset + width ≤ size)
    (index : Fin width) :
    (slice block offset inside).get index = block.get ⟨offset + index, part_inside inside index⟩ :=
  Vector.getElem_ofFn _

/-- One byte of a block with a part replaced. Inside the part it is a byte of the new part. -/
theorem splice_get (block : Block size) (offset : Nat) (part : Block width) (index : Fin size) :
    (splice block offset part).get index =
      if inside : offset ≤ index ∧ index < offset + width then
        part.get ⟨index - offset, by omega⟩
      else block.get index :=
  Vector.getElem_ofFn _

/-- Blocks with the same bytes are equal. Equations between blocks are proved byte by byte. -/
theorem block_ext {left right : Block size} (same : ∀ index, left.get index = right.get index) :
    left = right :=
  Vector.ext fun index inside => same ⟨index, inside⟩

/-- The replaced part is read back. The offset is the one it was written at. -/
theorem slice_splice (block : Block size) (offset : Nat) (part : Block width)
    (inside : offset + width ≤ size) : slice (splice block offset part) offset inside = part := by
  apply block_ext
  intro index
  rw [slice_get, splice_get, dif_pos (by simp only; omega)]
  congr 1
  exact Fin.ext (Nat.add_sub_cancel_left _ _)

/-- A part beside the replaced one stays. Apart means that one of them ends before the other
begins. -/
theorem slice_splice_apart {length : Nat} (block : Block size) (offset other : Nat)
    (part : Block width) (inside : other + length ≤ size)
    (apart : other + length ≤ offset ∨ offset + width ≤ other) :
    slice (splice block offset part) other inside = slice block other inside := by
  apply block_ext
  intro index
  rw [slice_get, slice_get, splice_get, dif_neg (by simp only; omega)]

/-- One byte of a block after another. The bytes of the second come behind all bytes of the
first. -/
theorem append_get (left : Block size) (right : Block width) (index : Fin (size + width)) :
    (left ++ right).get index =
      if early : index < size then left.get ⟨index, early⟩
      else right.get ⟨index - size, by omega⟩ :=
  Vector.getElem_append index.isLt

/-- A part of a complement. It is the complement of the part. -/
theorem slice_complement (block : Block size) (offset : Nat) (inside : offset + width ≤ size) :
    (slice (complement block) offset inside : Block width) =
      complement (slice block offset inside) := by
  apply block_ext
  intro index
  rw [slice_get, complement_get, complement_get, slice_get]

/-- Two complements joined. They are the complement of the joined blocks. -/
theorem append_complement (left : Block size) (right : Block width) :
    complement left ++ complement right = complement (left ++ right) := by
  apply block_ext
  intro index
  rw [append_get, complement_get, append_get]
  by_cases early : index < size
  · rw [dif_pos early, dif_pos early, complement_get]
  · rw [dif_neg early, dif_neg early, complement_get]

/-- The front of two joined blocks. It is the first of them. -/
theorem slice_append_front (left : Block size) (right : Block width) :
    slice (left ++ right) 0 (by omega) = left := by
  apply block_ext
  intro index
  rw [slice_get, append_get, dif_pos (by simp only; omega)]
  simp only [Nat.zero_add]

/-- The back of two joined blocks. It is the second of them. -/
theorem slice_append_back (left : Block size) (right : Block width) :
    slice (left ++ right) size (Nat.le_refl _) = right := by
  apply block_ext
  intro index
  rw [slice_get, append_get, dif_neg (by simp only; omega)]
  simp only [Nat.add_sub_cancel_left]

/-- A block is made up of its front and its back. The two are joined again. -/
theorem append_slices (block : Block (size + width)) :
    (slice block 0 (by omega) : Block size) ++ (slice block size (Nat.le_refl _) : Block width) =
      block := by
  apply block_ext
  intro index
  rw [append_get]
  by_cases early : index < size
  · rw [dif_pos early, slice_get]
    simp only [Nat.zero_add]
  · rw [dif_neg early, slice_get]
    simp only [Nat.add_sub_of_le (Nat.le_of_not_lt early)]

/-- The bits of a part. They are those of the block, eight for each byte in front further on. -/
theorem bits_slice (block : Block size) (offset : Nat) (inside : offset + width ≤ size)
    (place : Nat) (below : place < 8 * width) :
    (bits (slice block offset inside)).getMsbD place =
      (bits block).getMsbD (8 * offset + place) := by
  have byte : (8 * offset + place) / 8 = offset + place / 8 := by omega
  have rest : (8 * offset + place) % 8 = place % 8 := by omega
  rw [bits_get _ _ below, bits_get _ _ (by omega), slice_get]
  simp only [byte, rest]

/-- The bits of one block after the other. They are the bits of both, one behind the other. -/
theorem bits_append (left : Block size) (right : Block width) (place : Nat) :
    (bits (left ++ right)).getMsbD place = (bits left ++ bits right).getMsbD place := by
  rw [BitVec.getMsbD_append]
  by_cases early : 8 * size ≤ place
  · rw [if_pos early]
    by_cases inside : place < 8 * (size + width)
    · have beyond : place / 8 - size = (place - 8 * size) / 8 := by omega
      have rest : (place - 8 * size) % 8 = place % 8 := by omega
      rw [bits_get _ _ inside, bits_get _ _ (by omega), append_get, dif_neg (by simp only; omega)]
      simp only [beyond, rest]
    · rw [BitVec.getMsbD_of_ge _ _ (by omega), BitVec.getMsbD_of_ge _ _ (by omega)]
  · rw [if_neg early, bits_get _ _ (by omega), bits_get _ _ (by omega), append_get,
      dif_pos (by simp only; omega)]

/-! ## Permutations -/

/-- Choose the bits of a word by a table of places, which are counted from one. A place may be
chosen twice, as an expansion does, or not at all. -/
def permute (table : Fin length → Nat) (word : BitVec width) : BitVec length :=
  BitVec.ofFnBE fun place => word.getMsbD (table place - 1)

/-- One chosen bit. Tables count places from one. -/
theorem permute_get (table : Fin length → Nat) (word : BitVec width) (place : Fin length) :
    (permute table word).getMsbD place = word.getMsbD (table place - 1) := by
  rw [permute, BitVec.getMsbD_ofFnBE, dif_pos place.isLt]

/-- A permutation reads nothing but the bits of its word. The widths of the two words may
differ. -/
theorem permute_congr {other : Nat} (table : Fin length → Nat) (left : BitVec width)
    (right : BitVec other) (same : ∀ place, left.getMsbD place = right.getMsbD place) :
    permute table left = permute table right := by
  rw [permute, permute]
  simp only [same]

/-- A table names places of a word of this width. Outside of the word a place would read a zero
bit. -/
def Within (width : Nat) (table : Fin length → Nat) : Prop :=
  ∀ place, 1 ≤ table place ∧ table place ≤ width

/-- Whether a table stays within a width is decided place by place. -/
instance (table : Fin length → Nat) : Decidable (Within width table) :=
  inferInstanceAs (Decidable (∀ place, 1 ≤ table place ∧ table place ≤ width))

/-- The complement may be taken before a permutation or after it. This holds because each place
takes one bit. -/
theorem permute_complement (table : Fin length → Nat) (word : BitVec width)
    (within : Within width table) : permute table (~~~ word) = ~~~ permute table word := by
  apply BitVec.eq_of_getMsbD_eq
  intro place inside
  have named := within ⟨place, inside⟩
  rw [permute_get table _ ⟨place, inside⟩, BitVec.getMsbD_not, BitVec.getMsbD_not,
    permute_get table _ ⟨place, inside⟩]
  simp only [inside, show table ⟨place, inside⟩ - 1 < width by omega]

/-- A table that leads back takes a permutation back. Only the second table has to reach every
place of the first. -/
theorem permute_back (forth : Fin length → Nat) (back : Fin width → Nat) (word : BitVec width)
    (within : Within length back)
    (leads : ∀ place : Fin width, ∀ inside : back place - 1 < length,
      forth ⟨back place - 1, inside⟩ = place + 1) :
    permute back (permute forth word) = word := by
  apply BitVec.eq_of_getMsbD_eq
  intro place inside
  have named := within ⟨place, inside⟩
  have below : back ⟨place, inside⟩ - 1 < length := by omega
  rw [permute_get back _ ⟨place, inside⟩, permute_get forth _ ⟨_, below⟩, leads ⟨place, inside⟩]
  rfl

end EffiLib.BitBlocks
