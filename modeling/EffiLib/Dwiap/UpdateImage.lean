import EffiLib.Dwiap.UpdateFile

/-!
# What an update file holds

A reader finds the payload behind the first 256 bytes, and in the header its length, two
checksums and the two strings.
-/

namespace EffiLib.Dwiap

open Buffers CStrings

/-- Read a word, the low byte first. It is what a reader takes from the header. -/
def word (bytes : List u8) (offset : Nat) : u32 :=
  UInt32.ofNat ((bytes.getD offset 0).toNat + 2 ^ 8 * (bytes.getD (offset + 1) 0).toNat +
    2 ^ 16 * (bytes.getD (offset + 2) 0).toNat + 2 ^ 24 * (bytes.getD (offset + 3) 0).toNat)

/-- Read a string field. It is all of the field, with what stands behind the zero. -/
def stringAt (bytes : List u8) (offset : Nat) : List u8 := (bytes.drop offset).take strInfoLen

/-- The complete image of a file: what a reader recovers from it. Strings longer than 19
characters are cut. -/
structure UpdateImage (content productName version dat : List u8) : Prop where
  size : dat.length = 256 + content.length
  payload : dat.drop 256 = content
  fileLength : (word dat 56).toNat = content.length
  fileCrc : getCRC32 crcDefaultSeed content (UInt32.ofNat content.length) = .ok (word dat 60)
  headerCrc : getCRC32 crcDefaultSeed ((dat.drop 4).take 64) 64 = .ok (word dat 0)
  padding : (dat.drop 68).take 188 = List.replicate 188 0xFF
  version : 0 ∈ stringAt dat 16 ∧ contents (stringAt dat 16) = (contents version).take 19
  productName : 0 ∈ stringAt dat 36 ∧ contents (stringAt dat 36) = (contents productName).take 19

/-- A word is read back from where it was written. What stands around it makes no difference. -/
theorem word_le32 (front rest : List u8) (value : u32) :
    word (front ++ (le32 value ++ rest)) front.length = value := by
  have byte (place : Nat) :
      (front ++ (le32 value ++ rest)).getD (front.length + place) 0 =
        (le32 value ++ rest).getD place 0 := by
    rw [List.getD_append_right _ _ _ _ (Nat.le_add_right _ _), Nat.add_sub_cancel_left]
  have low : (front ++ (le32 value ++ rest)).getD front.length 0 = value.toUInt8 := byte 0
  have bound := value.toNat_lt
  have eight : (value >>> 8).toNat = value.toNat / 2 ^ 8 := by
    rw [UInt32.toNat_shiftRight, Nat.shiftRight_eq_div_pow]; rfl
  have sixteen : (value >>> 16).toNat = value.toNat / 2 ^ 16 := by
    rw [UInt32.toNat_shiftRight, Nat.shiftRight_eq_div_pow]; rfl
  have twentyFour : (value >>> 24).toNat = value.toNat / 2 ^ 24 := by
    rw [UInt32.toNat_shiftRight, Nat.shiftRight_eq_div_pow]; rfl
  rw [← UInt32.toNat_inj, word, low, byte 1, byte 2, byte 3]
  change (UInt32.ofNat (value.toUInt8.toNat + 2 ^ 8 * (value >>> 8).toUInt8.toNat +
    2 ^ 16 * (value >>> 16).toUInt8.toNat + 2 ^ 24 * (value >>> 24).toUInt8.toNat)).toNat = _
  simp only [UInt32.toNat_toUInt8, eight, sixteen, twentyFour]
  rw [UInt32.toNat_ofNat_of_lt' (by rw [UInt32.size]; omega)]
  omega

/-- A string field holds the first characters of the string and a zero. A longer string is cut
there. -/
theorem string_field_read (text : List u8) :
    0 ∈ (stringField text).val ∧ contents (stringField text).val = (contents text).take 19 := by
  have read : contents (stringField text).val = (contents text).take 19 :=
    strncpy_contents text strInfoLen (strInfoLen - 1) (by decide)
  refine ⟨?_, read⟩
  by_contra missing
  have whole : contents (stringField text).val = (stringField text).val :=
    List.takeWhile_eq_self_iff.mpr fun ch member => by
      simpa using fun zero : ch = 0 => missing (zero ▸ member)
  have size := (stringField text).property
  rw [← whole, read, List.length_take] at size
  simp only [strInfoLen] at size
  omega

/-- The checksum of a buffer depends on the bytes it covers only. So a buffer may be followed by
anything. -/
theorem crc32_prefix (seed : u32) (left right : List u8) (len : u32)
    (same : left.take len.toNat = right.take len.toNat) (leftEnough : len.toNat ≤ left.length)
    (rightEnough : len.toNat ≤ right.length) :
    getCRC32 seed left len = getCRC32 seed right len := by
  rw [crc32_register seed left len leftEnough, crc32_register seed right len rightEnough, same]

/-- Words and strings are read back from a header, whatever follows it. These are the fields that
the image promises. -/
theorem header_read (fht : FileHeaderType) (rest : List u8) :
    word (fht.bytes ++ rest) 0 = fht.headerCrc ∧
    word (fht.bytes ++ rest) 56 = fht.updateFileLength ∧
    word (fht.bytes ++ rest) 60 = fht.updateFileCrc ∧
    stringAt (fht.bytes ++ rest) 16 = fht.version.val ∧
    stringAt (fht.bytes ++ rest) 36 = fht.productName.val := by
  have versionSize : fht.version.val.length = 20 := fht.version.property
  have productSize : fht.productName.val.length = 20 := fht.productName.property
  have number (front back : List u8) (value : u32) (offset : Nat) (starts : front.length = offset)
      (whole : fht.bytes ++ rest = front ++ (le32 value ++ back)) :
      word (fht.bytes ++ rest) offset = value := by
    rw [whole, ← starts, word_le32]
  have field (front middle back : List u8) (offset : Nat) (starts : front.length = offset)
      (lasts : middle.length = 20) (whole : fht.bytes ++ rest = front ++ (middle ++ back)) :
      stringAt (fht.bytes ++ rest) offset = middle := by
    rw [whole, stringAt, ← starts, List.drop_left, strInfoLen, ← lasts, List.take_left]
  let words := le32 fht.headerCrc ++ le32 fht.updateFlag ++ le32 fht.fileAttribute ++ le32 fht.sn
  let strings := words ++ fht.version.val ++ fht.productName.val
  let ending := le32 fht.updateFileCrc ++ (le32 fht.time ++ rest)
  refine ⟨?_, ?_, ?_, ?_, ?_⟩
  · exact number [] (le32 fht.updateFlag ++ le32 fht.fileAttribute ++ le32 fht.sn ++
      fht.version.val ++ fht.productName.val ++ le32 fht.updateFileLength ++ ending) _ 0 rfl
      (by simp [ending, FileHeaderType.bytes])
  · exact number strings ending _ 56 (by simp [strings, words, le32, versionSize, productSize])
      (by simp [strings, words, ending, FileHeaderType.bytes])
  · exact number (strings ++ le32 fht.updateFileLength) (le32 fht.time ++ rest) _ 60
      (by simp [strings, words, le32, versionSize, productSize])
      (by simp [strings, words, FileHeaderType.bytes])
  · exact field words _ (fht.productName.val ++ (le32 fht.updateFileLength ++ ending)) 16
      (by simp [words, le32]) versionSize (by simp [words, ending, FileHeaderType.bytes])
  · exact field (words ++ fht.version.val) _ (le32 fht.updateFileLength ++ ending) 36
      (by simp [words, le32, versionSize]) productSize
      (by simp [words, ending, FileHeaderType.bytes])

/-- A finished header in front of padding and content is the image of the content. The checks of a
reader are then those that the writer made. -/
theorem image_assembled (fht : FileHeaderType) (content productName version : List u8)
    (small : content.length < 2 ^ 32)
    (fileLength : fht.updateFileLength = UInt32.ofNat content.length)
    (fileCrc : getCRC32 crcDefaultSeed content (UInt32.ofNat content.length) =
      .ok fht.updateFileCrc)
    (headerCrc : getCRC32 crcDefaultSeed (fht.bytes.drop 4) 64 = .ok fht.headerCrc)
    (versionField : fht.version = stringField version)
    (productField : fht.productName = stringField productName) :
    UpdateImage content productName version
      (fht.bytes ++ (List.replicate 188 0xFF ++ content)) := by
  have size := header_size fht
  obtain ⟨headerWord, lengthWord, crcWord, versionAt, productAt⟩ :=
    header_read fht (List.replicate 188 0xFF ++ content)
  refine ⟨?_, ?_, ?_, ?_, ?_, ?_, ?_, ?_⟩
  · simp only [List.length_append, List.length_replicate]
    omega
  · rw [← List.append_assoc]
    exact List.drop_left' (by simp only [List.length_append, List.length_replicate]; omega)
  · rw [lengthWord, fileLength, UInt32.toNat_ofNat_of_lt' small]
  · rw [crcWord]
    exact fileCrc
  · rw [headerWord, List.drop_append_of_le_length (by omega),
      List.take_left' (by rw [List.length_drop]; omega)]
    exact headerCrc
  · rw [List.drop_left' size]
    exact List.take_left' List.length_replicate
  · rw [versionAt, versionField]
    exact string_field_read version
  · rw [productAt, productField]
    exact string_field_read productName

end EffiLib.Dwiap
