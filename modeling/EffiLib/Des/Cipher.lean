import EffiLib.Library.BitBlocks
import EffiLib.Library.Feistel

/-!
# The block cipher

`DES.c` keeps every value in arrays of bytes and numbers their bits from the highest bit of
byte 0. The tables count from one. Encryption and decryption are one loop that takes the
subkeys in opposite orders: it combines a half in place and exchanges two pointers.
-/

namespace EffiLib.Des

open BitBlocks

/-- The bytes of the source. Bit 0 of the source's numbering is the highest. -/
abbrev uChar := UInt8

/-- A table of places in an input of `inBits` bits, counted from one. That each entry names a
place is part of the table, so the loop reads inside the input. -/
structure Table (inBits outBits : Nat) where
  entries : Vector uChar outBits
  inside : ∀ i, 1 ≤ (entries.get i).toNat ∧ (entries.get i).toNat ≤ inBits

/-! ## Tables -/

/-- Permuted choice 1 of the key bits. Eight of the 64 bits are left out. -/
def PC1 : Table 64 56 where
  entries := #v[
    57, 49, 41, 33, 25, 17,  9,
     1, 58, 50, 42, 34, 26, 18,
    10,  2, 59, 51, 43, 35, 27,
    19, 11,  3, 60, 52, 44, 36,
    63, 55, 47, 39, 31, 23, 15,
     7, 62, 54, 46, 38, 30, 22,
    14,  6, 61, 53, 45, 37, 29,
    21, 13,  5, 28, 20, 12,  4]
  inside := by decide

/-- Permuted choice 2 of a subkey. Eight of the 56 bits are left out. -/
def PC2 : Table 56 48 where
  entries := #v[
    14, 17, 11, 24,  1,  5,
     3, 28, 15,  6, 21, 10,
    23, 19, 12,  4, 26,  8,
    16,  7, 27, 20, 13,  2,
    41, 52, 31, 37, 47, 55,
    30, 40, 51, 45, 33, 48,
    44, 49, 39, 56, 34, 53,
    46, 42, 50, 36, 29, 32]
  inside := by decide

/-- The expansion of a half. Sixteen bits are taken twice. -/
def E : Table 32 48 where
  entries := #v[
    32,  1,  2,  3,  4,  5,
     4,  5,  6,  7,  8,  9,
     8,  9, 10, 11, 12, 13,
    12, 13, 14, 15, 16, 17,
    16, 17, 18, 19, 20, 21,
    20, 21, 22, 23, 24, 25,
    24, 25, 26, 27, 28, 29,
    28, 29, 30, 31, 32,  1]
  inside := by decide

/-- The substitution boxes. Each has four rows of sixteen entries. -/
def S : Vector (Vector (Vector uChar 16) 4) 8 := #v[
  #v[#v[14,  4, 13,  1,  2, 15, 11,  8,  3, 10,  6, 12,  5,  9,  0,  7],
    #v[ 0, 15,  7,  4, 14,  2, 13,  1, 10,  6, 12, 11,  9,  5,  3,  8],
    #v[ 4,  1, 14,  8, 13,  6,  2, 11, 15, 12,  9,  7,  3, 10,  5,  0],
    #v[15, 12,  8,  2,  4,  9,  1,  7,  5, 11,  3, 14, 10,  0,  6, 13]],
  #v[#v[15,  1,  8, 14,  6, 11,  3,  4,  9,  7,  2, 13, 12,  0,  5, 10],
    #v[ 3, 13,  4,  7, 15,  2,  8, 14, 12,  0,  1, 10,  6,  9, 11,  5],
    #v[ 0, 14,  7, 11, 10,  4, 13,  1,  5,  8, 12,  6,  9,  3,  2, 15],
    #v[13,  8, 10,  1,  3, 15,  4,  2, 11,  6,  7, 12,  0,  5, 14,  9]],
  #v[#v[10,  0,  9, 14,  6,  3, 15,  5,  1, 13, 12,  7, 11,  4,  2,  8],
    #v[13,  7,  0,  9,  3,  4,  6, 10,  2,  8,  5, 14, 12, 11, 15,  1],
    #v[13,  6,  4,  9,  8, 15,  3,  0, 11,  1,  2, 12,  5, 10, 14,  7],
    #v[ 1, 10, 13,  0,  6,  9,  8,  7,  4, 15, 14,  3, 11,  5,  2, 12]],
  #v[#v[ 7, 13, 14,  3,  0,  6,  9, 10,  1,  2,  8,  5, 11, 12,  4, 15],
    #v[13,  8, 11,  5,  6, 15,  0,  3,  4,  7,  2, 12,  1, 10, 14,  9],
    #v[10,  6,  9,  0, 12, 11,  7, 13, 15,  1,  3, 14,  5,  2,  8,  4],
    #v[ 3, 15,  0,  6, 10,  1, 13,  8,  9,  4,  5, 11, 12,  7,  2, 14]],
  #v[#v[ 2, 12,  4,  1,  7, 10, 11,  6,  8,  5,  3, 15, 13,  0, 14,  9],
    #v[14, 11,  2, 12,  4,  7, 13,  1,  5,  0, 15, 10,  3,  9,  8,  6],
    #v[ 4,  2,  1, 11, 10, 13,  7,  8, 15,  9, 12,  5,  6,  3,  0, 14],
    #v[11,  8, 12,  7,  1, 14,  2, 13,  6, 15,  0,  9, 10,  4,  5,  3]],
  #v[#v[12,  1, 10, 15,  9,  2,  6,  8,  0, 13,  3,  4, 14,  7,  5, 11],
    #v[10, 15,  4,  2,  7, 12,  9,  5,  6,  1, 13, 14,  0, 11,  3,  8],
    #v[ 9, 14, 15,  5,  2,  8, 12,  3,  7,  0,  4, 10,  1, 13, 11,  6],
    #v[ 4,  3,  2, 12,  9,  5, 15, 10, 11, 14,  1,  7,  6,  0,  8, 13]],
  #v[#v[ 4, 11,  2, 14, 15,  0,  8, 13,  3, 12,  9,  7,  5, 10,  6,  1],
    #v[13,  0, 11,  7,  4,  9,  1, 10, 14,  3,  5, 12,  2, 15,  8,  6],
    #v[ 1,  4, 11, 13, 12,  3,  7, 14, 10, 15,  6,  8,  0,  5,  9,  2],
    #v[ 6, 11, 13,  8,  1,  4, 10,  7,  9,  5,  0, 15, 14,  2,  3, 12]],
  #v[#v[13,  2,  8,  4,  6, 15, 11,  1, 10,  9,  3, 14,  5,  0, 12,  7],
    #v[ 1, 15, 13,  8, 10,  3,  7,  4, 12,  5,  6, 11,  0, 14,  9,  2],
    #v[ 7, 11,  4,  1,  9, 12, 14,  2,  0,  6, 10, 13, 15,  3,  5,  8],
    #v[ 2,  1, 14,  7,  4, 10,  8, 13, 15, 12,  9,  0,  3,  5,  6, 11]]]

/-- The permutation behind the S-boxes. It takes each bit once. -/
def P : Table 32 32 where
  entries := #v[
    16,  7, 20, 21, 29, 12, 28, 17,
     1, 15, 23, 26,  5, 18, 31, 10,
     2,  8, 24, 14, 32, 27,  3,  9,
    19, 13, 30,  6, 22, 11,  4, 25]
  inside := by decide

/-- The initial permutation. It takes each bit once. -/
def IP : Table 64 64 where
  entries := #v[
    58, 50, 42, 34, 26, 18, 10,  2,
    60, 52, 44, 36, 28, 20, 12,  4,
    62, 54, 46, 38, 30, 22, 14,  6,
    64, 56, 48, 40, 32, 24, 16,  8,
    57, 49, 41, 33, 25, 17,  9,  1,
    59, 51, 43, 35, 27, 19, 11,  3,
    61, 53, 45, 37, 29, 21, 13,  5,
    63, 55, 47, 39, 31, 23, 15,  7]
  inside := by decide

/-- The permutation at the end. It takes `IP` back. -/
def IPInv : Table 64 64 where
  entries := #v[
    40,  8, 48, 16, 56, 24, 64, 32,
    39,  7, 47, 15, 55, 23, 63, 31,
    38,  6, 46, 14, 54, 22, 62, 30,
    37,  5, 45, 13, 53, 21, 61, 29,
    36,  4, 44, 12, 52, 20, 60, 28,
    35,  3, 43, 11, 51, 19, 59, 27,
    34,  2, 42, 10, 50, 18, 58, 26,
    33,  1, 41,  9, 49, 17, 57, 25]
  inside := by decide

/-! ## Bits -/

/-- `isBitSet`. The index is inside, which is part of the call. -/
def isBitSet {size : Nat} (array : Block size) (bitNum : Nat) (inside : bitNum < 8 * size) : Bool :=
  (array.get ⟨bitNum / 8, byte_inside inside⟩ &&& (1 <<< UInt8.ofNat (7 - bitNum % 8))) != 0

/-- `setBit`. The other bits stay. -/
def setBit (ch : uChar) (bitPos : Nat) : uChar := ch ||| (1 <<< UInt8.ofNat (7 - bitPos))

/-- `resetBit`. The other bits stay. -/
def resetBit (ch : uChar) (bitPos : Nat) : uChar := ch &&& ~~~(1 <<< UInt8.ofNat (7 - bitPos))

/-! ## Blocks -/

/-- Replace one byte. The others stay. -/
def put {size : Nat} (array : Block size) (index : Fin size) (ch : uChar) : Block size :=
  array.set index ch

/-- `blockXOR` into the part of an array that `arg1` points to. The part is written byte by
byte. -/
def blockXOR {size width : Nat} (array : Block size) (arg1 : Nat) (arg2 : Block width)
    (inside : arg1 + width ≤ size) : Block size :=
  loop width (fun array i =>
    let target : Fin size := ⟨arg1 + i, part_inside inside i⟩
    put array target (array.get target ^^^ arg2.get i)) array

/-- `blockLeftRotateHalves`: both halves of 28 bits one place to the left. The halves meet in the
middle of byte 3. -/
def blockLeftRotateHalves (cd : Block 7) : Block 7 :=
  let bTest := cd.get 0 &&& 0x80
  let cd := loop 6 (fun (cd : Block 7) i =>
    put cd i.castSucc ((cd.get i.castSucc <<< 1) ||| ((cd.get i.succ &&& 0x80) >>> 7))) cd
  let cd := put cd 6 ((cd.get 6 <<< 1) ||| ((cd.get 3 &&& 0x10) >>> 4))
  put cd 3 (if bTest != 0 then setBit (cd.get 3) 3 else resetBit (cd.get 3) 3)

/-- `blockPermute`: the output is cleared and the bits set one after the other. Bits that are
clear in the input are not written. -/
def blockPermute {size width : Nat} (table : Table (8 * size) (8 * width)) (input : Block size) :
    Block width :=
  loop (8 * width) (fun output i =>
    let target : Fin width := ⟨i / 8, place_inside i⟩
    if isBitSet input ((table.entries.get i).toNat - 1) (by have := table.inside i; omega) then
      put output target (setBit (output.get target) (i % 8))
    else output) (Vector.replicate width 0)

/-- The row of an S-box, from the outer two of six bits. That it is below four is part of the
result. -/
def sBoxRow (input : Block 6) (i : Fin 8) : { row : uChar // row.toNat < 4 } :=
  ⟨let row : uChar := 0
    let row := if isBitSet input (6 * i) (by omega) then setBit row 6 else row
    if isBitSet input (6 * i + 5) (by omega) then setBit row 7 else row, by
    dsimp only
    split_ifs <;> decide⟩

/-- The column of an S-box, from the inner four of six bits. That it is below sixteen is part of
the result. -/
def sBoxColumn (input : Block 6) (i : Fin 8) : { column : uChar // column.toNat < 16 } :=
  ⟨let column : uChar := 0
    let column := if isBitSet input (6 * i + 1) (by omega) then setBit column 4 else column
    let column := if isBitSet input (6 * i + 2) (by omega) then setBit column 5 else column
    let column := if isBitSet input (6 * i + 3) (by omega) then setBit column 6 else column
    if isBitSet input (6 * i + 4) (by omega) then setBit column 7 else column, by
    dsimp only
    split_ifs <;> decide⟩

/-- The entry of an S-box for its six bits. Row and column are inside of the box. -/
def sBoxEntry (input : Block 6) (i : Fin 8) : uChar :=
  let row := sBoxRow input i
  let column := sBoxColumn input i
  ((S.get i).get ⟨row.val.toNat, row.property⟩).get ⟨column.val.toNat, column.property⟩

/-- `blockPermuteSBox`: eight boxes of four bits each, combined into the result. Two boxes share a
byte. -/
def blockPermuteSBox (input : Block 6) (result : Block 4) : Block 4 :=
  loop 8 (fun (result : Block 4) i =>
    let target : Fin 4 := ⟨i / 2, by omega⟩
    put result target (result.get target |||
      (sBoxEntry input i <<< if i.val % 2 ≠ 0 then 0 else 4))) result

/-- `f`, the mix of a half under a subkey. It never looks at the other half. -/
def f (subKey : Block 6) (a : Block 4) : Block 4 :=
  let eResult : Block 6 := blockPermute E a
  let eResult := blockXOR eResult 0 subKey (by decide)
  let sBoxResult := blockPermuteSBox eResult (Vector.replicate 4 0)
  blockPermute P sBoxResult

/-! ## Keys -/

/-- Sixteen subkeys of six bytes. They lie one behind the other. -/
abbrev KeySchedule := Block 96

/-- The subkey at `k + 6 * i`. Each round has its own. -/
def subKeyAt (k : KeySchedule) (i : Fin 16) : Block 6 := slice k (6 * i) (by omega)

/-- The rotations of one round of the key schedule: two, or one in four of the rounds. The rounds
are counted from zero. -/
def rotateRound (cidi : Block 7) (i : Nat) : Block 7 :=
  let cidi := blockLeftRotateHalves cidi
  if i ≠ 0 ∧ i ≠ 1 ∧ i ≠ 8 ∧ i ≠ 15 then blockLeftRotateHalves cidi else cidi

/-- One round of the key schedule: rotations and a permuted choice. It writes the subkey of its
own round only. -/
def keyRound (state : Block 7 × KeySchedule) (i : Fin 16) : Block 7 × KeySchedule :=
  let cidi := rotateRound state.1 i
  (cidi, splice state.2 (6 * i) (blockPermute PC2 cidi : Block 6))

/-- `DESKeySchedule`, or nothing when there is no memory. Memory is asked for before anything is
computed. -/
def desKeySchedule (granted : Bool) (key : Block 8) : Option KeySchedule :=
  if granted = false then none
  else some (loop 16 keyRound (blockPermute PC1 key, Vector.replicate 96 0)).2

/-! ## Encryption -/

/-- The array of both halves and the pointers into it. The two halves stay apart. That is an
invariant of the loop, carried in the type. -/
structure RoundState where
  ipResult : Block 8
  lprev : Fin 5
  rprev : Fin 5
  apart : lprev + 4 ≤ rprev.val ∨ rprev + 4 ≤ lprev.val

/-- The pointer to the array. The left half begins there. -/
def firstHalf : Fin 5 := 0

/-- The pointer four bytes further. The right half begins there. -/
def secondHalf : Fin 5 := 4

/-- The half that a pointer addresses. It is four bytes long. -/
def half (array : Block 8) (pointer : Fin 5) : Block 4 := slice array pointer (by omega)

/-- One round: `f` of the right half goes into the left one, then the pointers change. Nothing is
moved in the array. -/
def cryptRound (state : RoundState) (subKey : Block 6) : RoundState :=
  let fResult := f subKey (half state.ipResult state.rprev)
  { ipResult := blockXOR state.ipResult state.lprev fResult (by omega)
    lprev := state.rprev
    rprev := state.lprev
    apart := state.apart.symm }

/-- The body of `DESEncrypt` and `DESDecrypt`, with the order of the subkeys open. The halves are
exchanged once more at the end. -/
def desCrypt (subKey : Fin 16 → Block 6) (message : Block 8) : Block 8 :=
  let start : RoundState := ⟨blockPermute IP message, firstHalf, secondHalf, by decide⟩
  let last := loop 16 (fun state i => cryptRound state (subKey i)) start
  let fpSrc : Block 8 := half last.ipResult last.rprev ++ half last.ipResult last.lprev
  blockPermute IPInv fpSrc

/-- The round that is as far from the end. It takes itself back. -/
def fromEnd (i : Fin 16) : Fin 16 := ⟨15 - i, by omega⟩

/-- `DESEncrypt`. The subkeys are taken from the first to the last. -/
def desEncrypt (message : Block 8) (k : KeySchedule) : Block 8 :=
  desCrypt (fun i => subKeyAt k i) message

/-- `DESDecrypt`, with the subkeys from the last to the first. All else is as in `desEncrypt`. -/
def desDecrypt (cipher : Block 8) (k : KeySchedule) : Block 8 :=
  desCrypt (fun i => subKeyAt k (fromEnd i)) cipher

end EffiLib.Des
