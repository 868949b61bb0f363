import Mathlib

/-!
# Words inside a byte array

A word of some bytes lies at an offset of an array, its low byte first. A word that was
stored is loaded again up to its width, and a store changes no byte outside its own.
-/

namespace EffiLib.LittleEndian

/-- The byte at an offset. Behind the array it is zero. -/
def byteAt (bytes : List UInt8) (offset : Nat) : UInt8 := bytes.getD offset 0

/-- The word of so many bytes at an offset. The result is a number, which the fixed-width types of
the source hold. -/
def loadWord : Nat → Nat → List UInt8 → Nat
  | 0, _, _ => 0
  | width + 1, offset, bytes =>
    (byteAt bytes offset).toNat + 256 * loadWord width (offset + 1) bytes

/-- The array with the low bytes of a word stored at an offset. Higher bytes of the word are
dropped, and so are bytes behind the array. -/
def storeWord : Nat → Nat → Nat → List UInt8 → List UInt8
  | 0, _, _, bytes => bytes
  | width + 1, offset, word, bytes =>
    storeWord width (offset + 1) (word / 256) (bytes.set offset (UInt8.ofNat word))

/-- A byte behind setting one. It is the new one at its place and the old one elsewhere. -/
theorem byte_at_set (bytes : List UInt8) (offset other : Nat) (byte : UInt8)
    (inside : offset < bytes.length) :
    byteAt (bytes.set offset byte) other = if other = offset then byte else byteAt bytes other := by
  simp only [byteAt, List.getD_eq_getElem?_getD, List.getElem?_set]
  by_cases same : offset = other
  · rw [if_pos same, if_pos inside, if_pos same.symm, Option.getD_some]
  · rw [if_neg same, if_neg (fun equal => same equal.symm)]

/-- A word is below its width. Proof: by induction on the width. -/
theorem load_word_lt (width offset : Nat) (bytes : List UInt8) :
    loadWord width offset bytes < 256 ^ width := by
  induction width generalizing offset with
  | zero => exact Nat.one_pos
  | succ width inductionHypothesis =>
    have low := (byteAt bytes offset).toNat_lt
    have high := inductionHypothesis (offset + 1)
    rw [loadWord, Nat.pow_succ]
    omega

/-- A word is made of its bytes alone. Bytes in front of it and behind it do not matter. -/
theorem load_word_congr (width offset : Nat) (bytes other : List UInt8)
    (same : ∀ place, offset ≤ place → place < offset + width →
      byteAt bytes place = byteAt other place) :
    loadWord width offset bytes = loadWord width offset other := by
  induction width generalizing offset with
  | zero => rfl
  | succ width inductionHypothesis =>
    rw [loadWord, loadWord, same offset (Nat.le_refl _) (by omega),
      inductionHypothesis (offset + 1) (fun place late early => same place (by omega) (by omega))]

/-- Storing a word keeps the length of the array, also where the word does not fit. -/
@[simp] theorem store_word_length (width offset word : Nat) (bytes : List UInt8) :
    (storeWord width offset word bytes).length = bytes.length := by
  induction width generalizing offset word bytes with
  | zero => rfl
  | succ width inductionHypothesis =>
    rw [storeWord, inductionHypothesis, List.length_set]

/-- A store leaves every byte outside its word. The word has to lie inside the array. -/
theorem store_word_outside (width offset word : Nat) (bytes : List UInt8) (place : Nat)
    (inside : offset + width ≤ bytes.length)
    (outside : place < offset ∨ offset + width ≤ place) :
    byteAt (storeWord width offset word bytes) place = byteAt bytes place := by
  induction width generalizing offset word bytes with
  | zero => rfl
  | succ width inductionHypothesis =>
    rw [storeWord, inductionHypothesis (offset + 1) _ _ (by rw [List.length_set]; omega) (by omega),
      byte_at_set _ _ _ _ (by omega), if_neg (by omega)]

/-- A word that was stored is loaded, up to its width. Proof: by induction on the width; the low
byte is not touched by the rest of the store. -/
theorem load_word_store_word (width offset word : Nat) (bytes : List UInt8)
    (inside : offset + width ≤ bytes.length) :
    loadWord width offset (storeWord width offset word bytes) = word % 256 ^ width := by
  induction width generalizing offset word bytes with
  | zero => rw [loadWord, Nat.pow_zero, Nat.mod_one]
  | succ width inductionHypothesis =>
    have grown : 256 ^ (width + 1) = 256 * 256 ^ width := Nat.pow_succ'
    rw [storeWord, loadWord,
      store_word_outside _ _ _ _ offset (by rw [List.length_set]; omega) (Or.inl (by omega)),
      byte_at_set _ _ _ _ (by omega), if_pos rfl,
      inductionHypothesis _ _ _ (by rw [List.length_set]; omega), UInt8.toNat_ofNat', grown,
      Nat.mod_mul]

/-- Words that are apart do not disturb each other. One of the two ends before the other
begins. -/
theorem load_word_apart (width offset word : Nat) (bytes : List UInt8) (wide place : Nat)
    (inside : offset + width ≤ bytes.length)
    (apart : place + wide ≤ offset ∨ offset + width ≤ place) :
    loadWord wide place (storeWord width offset word bytes) = loadWord wide place bytes :=
  load_word_congr wide place _ _ (fun other late early =>
    store_word_outside width offset word bytes other inside (by omega))

end EffiLib.LittleEndian
