import EffiLib.Library.BitBlocks

/-!
# The standard's cipher

FIPS 46-3 defines the cipher on bit vectors, with bit 1 in front. The tables and the
functions are written out as the standard gives them, apart from the arrays and pointers of
the code.
-/

namespace EffiLib.Des.Standard

open BitBlocks

/-- `IP`. Places are counted from one, from the left. -/
def initialPermutation : Vector Nat 64 := #v[
  58, 50, 42, 34, 26, 18, 10, 2,
  60, 52, 44, 36, 28, 20, 12, 4,
  62, 54, 46, 38, 30, 22, 14, 6,
  64, 56, 48, 40, 32, 24, 16, 8,
  57, 49, 41, 33, 25, 17, 9, 1,
  59, 51, 43, 35, 27, 19, 11, 3,
  61, 53, 45, 37, 29, 21, 13, 5,
  63, 55, 47, 39, 31, 23, 15, 7]

/-- The inverse of `IP`. It is a table of its own here. -/
def inverseInitialPermutation : Vector Nat 64 := #v[
  40, 8, 48, 16, 56, 24, 64, 32,
  39, 7, 47, 15, 55, 23, 63, 31,
  38, 6, 46, 14, 54, 22, 62, 30,
  37, 5, 45, 13, 53, 21, 61, 29,
  36, 4, 44, 12, 52, 20, 60, 28,
  35, 3, 43, 11, 51, 19, 59, 27,
  34, 2, 42, 10, 50, 18, 58, 26,
  33, 1, 41, 9, 49, 17, 57, 25]

/-- The bit-selection table `E`. It makes 48 bits of 32. -/
def bitSelection : Vector Nat 48 := #v[
  32, 1, 2, 3, 4, 5,
  4, 5, 6, 7, 8, 9,
  8, 9, 10, 11, 12, 13,
  12, 13, 14, 15, 16, 17,
  16, 17, 18, 19, 20, 21,
  20, 21, 22, 23, 24, 25,
  24, 25, 26, 27, 28, 29,
  28, 29, 30, 31, 32, 1]

/-- The permutation `P`. It follows the selection functions. -/
def permutationP : Vector Nat 32 := #v[
  16, 7, 20, 21,
  29, 12, 28, 17,
  1, 15, 23, 26,
  5, 18, 31, 10,
  2, 8, 24, 14,
  32, 27, 3, 9,
  19, 13, 30, 6,
  22, 11, 4, 25]

/-- The selection functions `S1` to `S8`, a row for each pair of outer bits. A column is for each
value of the inner four. -/
def selectionFunctions : Vector (Vector (Vector Nat 16) 4) 8 := #v[
  #v[#v[14, 4, 13, 1, 2, 15, 11, 8, 3, 10, 6, 12, 5, 9, 0, 7],
    #v[0, 15, 7, 4, 14, 2, 13, 1, 10, 6, 12, 11, 9, 5, 3, 8],
    #v[4, 1, 14, 8, 13, 6, 2, 11, 15, 12, 9, 7, 3, 10, 5, 0],
    #v[15, 12, 8, 2, 4, 9, 1, 7, 5, 11, 3, 14, 10, 0, 6, 13]],
  #v[#v[15, 1, 8, 14, 6, 11, 3, 4, 9, 7, 2, 13, 12, 0, 5, 10],
    #v[3, 13, 4, 7, 15, 2, 8, 14, 12, 0, 1, 10, 6, 9, 11, 5],
    #v[0, 14, 7, 11, 10, 4, 13, 1, 5, 8, 12, 6, 9, 3, 2, 15],
    #v[13, 8, 10, 1, 3, 15, 4, 2, 11, 6, 7, 12, 0, 5, 14, 9]],
  #v[#v[10, 0, 9, 14, 6, 3, 15, 5, 1, 13, 12, 7, 11, 4, 2, 8],
    #v[13, 7, 0, 9, 3, 4, 6, 10, 2, 8, 5, 14, 12, 11, 15, 1],
    #v[13, 6, 4, 9, 8, 15, 3, 0, 11, 1, 2, 12, 5, 10, 14, 7],
    #v[1, 10, 13, 0, 6, 9, 8, 7, 4, 15, 14, 3, 11, 5, 2, 12]],
  #v[#v[7, 13, 14, 3, 0, 6, 9, 10, 1, 2, 8, 5, 11, 12, 4, 15],
    #v[13, 8, 11, 5, 6, 15, 0, 3, 4, 7, 2, 12, 1, 10, 14, 9],
    #v[10, 6, 9, 0, 12, 11, 7, 13, 15, 1, 3, 14, 5, 2, 8, 4],
    #v[3, 15, 0, 6, 10, 1, 13, 8, 9, 4, 5, 11, 12, 7, 2, 14]],
  #v[#v[2, 12, 4, 1, 7, 10, 11, 6, 8, 5, 3, 15, 13, 0, 14, 9],
    #v[14, 11, 2, 12, 4, 7, 13, 1, 5, 0, 15, 10, 3, 9, 8, 6],
    #v[4, 2, 1, 11, 10, 13, 7, 8, 15, 9, 12, 5, 6, 3, 0, 14],
    #v[11, 8, 12, 7, 1, 14, 2, 13, 6, 15, 0, 9, 10, 4, 5, 3]],
  #v[#v[12, 1, 10, 15, 9, 2, 6, 8, 0, 13, 3, 4, 14, 7, 5, 11],
    #v[10, 15, 4, 2, 7, 12, 9, 5, 6, 1, 13, 14, 0, 11, 3, 8],
    #v[9, 14, 15, 5, 2, 8, 12, 3, 7, 0, 4, 10, 1, 13, 11, 6],
    #v[4, 3, 2, 12, 9, 5, 15, 10, 11, 14, 1, 7, 6, 0, 8, 13]],
  #v[#v[4, 11, 2, 14, 15, 0, 8, 13, 3, 12, 9, 7, 5, 10, 6, 1],
    #v[13, 0, 11, 7, 4, 9, 1, 10, 14, 3, 5, 12, 2, 15, 8, 6],
    #v[1, 4, 11, 13, 12, 3, 7, 14, 10, 15, 6, 8, 0, 5, 9, 2],
    #v[6, 11, 13, 8, 1, 4, 10, 7, 9, 5, 0, 15, 14, 2, 3, 12]],
  #v[#v[13, 2, 8, 4, 6, 15, 11, 1, 10, 9, 3, 14, 5, 0, 12, 7],
    #v[1, 15, 13, 8, 10, 3, 7, 4, 12, 5, 6, 11, 0, 14, 9, 2],
    #v[7, 11, 4, 1, 9, 12, 14, 2, 0, 6, 10, 13, 15, 3, 5, 8],
    #v[2, 1, 14, 7, 4, 10, 8, 13, 15, 12, 9, 0, 3, 5, 6, 11]]]

/-- The row that six bits select, from the first and the last. The two bits are the number of the
row. -/
def row (six : BitVec 6) : Fin 4 :=
  ⟨2 * (six.getMsbD 0).toNat + (six.getMsbD 5).toNat, by
    have first := (six.getMsbD 0).toNat_lt
    have last := (six.getMsbD 5).toNat_lt
    omega⟩

/-- The column that six bits select, from the middle four. The four bits are the number of the
column. -/
def column (six : BitVec 6) : Fin 16 :=
  ⟨8 * (six.getMsbD 1).toNat + 4 * (six.getMsbD 2).toNat + 2 * (six.getMsbD 3).toNat +
    (six.getMsbD 4).toNat, by
    have second := (six.getMsbD 1).toNat_lt
    have third := (six.getMsbD 2).toNat_lt
    have fourth := (six.getMsbD 3).toNat_lt
    have fifth := (six.getMsbD 4).toNat_lt
    omega⟩

/-- One selection function. Its result has four bits. -/
def select (box : Fin 8) (six : BitVec 6) : BitVec 4 :=
  BitVec.ofNat 4 (((selectionFunctions.get box).get (row six)).get (column six))

/-- The six bits for one selection function. The first function takes the leftmost. -/
def sixBits (box : Fin 8) (word : BitVec 48) : BitVec 6 := word.extractLsb' (42 - 6 * box) 6

/-- All selection functions, four bits of the result from each. The results stand in the order of
the functions. -/
def substitute (word : BitVec 48) : BitVec 32 :=
  BitVec.ofFnBE fun place : Fin 32 =>
    (select ⟨place / 4, by omega⟩ (sixBits ⟨place / 4, by omega⟩ word)).getMsbD (place % 4)

/-- The cipher function `f`. Its key has 48 bits. -/
def cipherFunction (key : BitVec 48) (right : BitVec 32) : BitVec 32 :=
  permute permutationP.get (substitute (permute bitSelection.get right ^^^ key))

/-- `L' = R` and `R' = L xor f(R, K)`. `L` is on the left of the pair. -/
def standardRound (pair : BitVec 32 × BitVec 32) (key : BitVec 48) : BitVec 32 × BitVec 32 :=
  (pair.2, pair.1 ^^^ cipherFunction key pair.2)

/-- Enciphering under sixteen keys: the preoutput is `R16` in front of `L16`. The last round is
like the others, and the halves are exchanged behind it. -/
def encipher (key : Fin 16 → BitVec 48) (input : BitVec 64) : BitVec 64 :=
  let permuted : BitVec 64 := permute initialPermutation.get input
  let start : BitVec 32 × BitVec 32 := (permuted.extractLsb' 32 32, permuted.extractLsb' 0 32)
  let last := ((List.finRange 16).map key).foldl standardRound start
  permute inverseInitialPermutation.get (last.2 ++ last.1)

/-! ## Key schedule -/

/-- `PC-1`. The parity bits are not chosen. -/
def permutedChoice1 : Vector Nat 56 := #v[
  57, 49, 41, 33, 25, 17, 9,
  1, 58, 50, 42, 34, 26, 18,
  10, 2, 59, 51, 43, 35, 27,
  19, 11, 3, 60, 52, 44, 36,
  63, 55, 47, 39, 31, 23, 15,
  7, 62, 54, 46, 38, 30, 22,
  14, 6, 61, 53, 45, 37, 29,
  21, 13, 5, 28, 20, 12, 4]

/-- `PC-2`. It chooses 48 bits of 56. -/
def permutedChoice2 : Vector Nat 48 := #v[
  14, 17, 11, 24, 1, 5,
  3, 28, 15, 6, 21, 10,
  23, 19, 12, 4, 26, 8,
  16, 7, 27, 20, 13, 2,
  41, 52, 31, 37, 47, 55,
  30, 40, 51, 45, 33, 48,
  44, 49, 39, 56, 34, 53,
  46, 42, 50, 36, 29, 32]

/-- The left shifts of the sixteen iterations. They add up to 28. -/
def leftShifts : Vector Nat 16 := #v[1, 1, 2, 2, 2, 2, 2, 2, 1, 2, 2, 2, 2, 2, 2, 1]

/-- The left shifts up to an iteration, which is counted from one. The standard applies the shifts
one after the other. -/
def cumulativeShift (iteration : Nat) : Nat := (leftShifts.toList.take iteration).sum

example : cumulativeShift 16 = 28 := by decide

/-- `C0`, the first half of the permuted key. It has 28 bits. -/
def firstKeyHalf (key : BitVec 64) : BitVec 28 :=
  (permute permutedChoice1.get key : BitVec 56).extractLsb' 28 28

/-- `D0`, the second half of the permuted key. It has 28 bits. -/
def secondKeyHalf (key : BitVec 64) : BitVec 28 :=
  (permute permutedChoice1.get key : BitVec 56).extractLsb' 0 28

/-- The key of an iteration: both halves shifted, one behind the other, and permuted. The
iterations are counted from one. -/
def iterationKey (key : BitVec 64) (iteration : Nat) : BitVec 48 :=
  permute permutedChoice2.get
    ((firstKeyHalf key).rotateLeft (cumulativeShift iteration) ++
      (secondKeyHalf key).rotateLeft (cumulativeShift iteration))

end EffiLib.Des.Standard
