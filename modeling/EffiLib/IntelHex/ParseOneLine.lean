import EffiLib.IntelHex.BlockList
import EffiLib.IntelHex.HexText

/-!
# Parsing one record line

`parseOneLine` follows `ParseOneLine`: text checks first, then the switch over the
record type. The local array `data` is an argument, because the decoder does not
have to fill it; its initial content is whatever the stack held.

The text checks decide on the bytes the decoder leaves in the array. For a line of
hexadecimal digits these are the bytes it spells; with other characters in it some
of them come from the initial content.
-/

namespace EffiLib.IntelHex

open Buffers LinkedHeap Segments

/-- The local array `u8 data[256]` before the decoder writes to it. Its content is not determined
by the source, and so every result is stated for all of them. -/
structure LocalBuffer where
  bytes : List u8
  size : bytes.length = 256

/-- A local array that happens to be zero. It is used for concrete runs. -/
def LocalBuffer.zero : LocalBuffer := ⟨List.replicate 256 0, List.length_replicate⟩

/-- The big-endian address field of a decoded record. It is relative to the base of the
structure. -/
def addressField (data : List u8) : u16 := (data.getD 1 0).toUInt16 * 256 + (data.getD 2 0).toUInt16

/-- Four decoded bytes as a big-endian word. The source shifts in `int`; the
assignment to `u32` keeps the same low 32 bits. -/
def bigEndianWord (data : List u8) : u32 :=
  ((data.getD 4 0).toUInt32 <<< 24) + ((data.getD 5 0).toUInt32 <<< 16) +
    ((data.getD 6 0).toUInt32 <<< 8) + (data.getD 7 0).toUInt32

/-- The last step of a linear data record: add `count` payload bytes at the base. A refused range
leaves the total as it is. -/
def storePayload (heap : Heap Block) (hexFile : IntelHexFormat) (data : List u8) (count : u8) :
    Run (Bool × Heap Block × IntelHexFormat) := do
  let (accepted, heap, hexFile) ← addBlock heap hexFile
    (hexFile.addressBase + (addressField data).toUInt32) (data.drop 4) count.toUInt32
  if accepted then
    .ok (true, heap, { hexFile with totalLength := hexFile.totalLength + count.toUInt32 })
  else .ok (false, heap, hexFile)

/-- The 64-bit comparison that recognises a record running across 2^32. The sum is taken in 64
bits and does not wrap here. -/
def crosses (hexFile : IntelHexFormat) (data : List u8) : Bool :=
  let first : u64 := hexFile.addressBase.toUInt64 + (addressField data).toUInt64
  decide (first < (1 : u64) <<< 32 ∧ first + (data.getD 0 0).toUInt64 > (1 : u64) <<< 32)

/-- The bytes of a crossing record that still lie below 2^32. The record is stored in two calls,
and these are the bytes of the first one. -/
def firstHalf (hexFile : IntelHexFormat) (data : List u8) : u32 :=
  ((1 : u64) <<< 32 - hexFile.addressBase.toUInt64 - (addressField data).toUInt64).toUInt32

/-- A data record in linear mode. A crossing record adds its second half at
address 0 before the first half. -/
def linearRecord (heap : Heap Block) (hexFile : IntelHexFormat) (data : List u8) :
    Run (Bool × Heap Block × IntelHexFormat) :=
  if crosses hexFile data then do
    let split := firstHalf hexFile data
    let rest := (data.getD 0 0).toUInt32 - split
    let (accepted, heap, hexFile) ← addBlock heap hexFile 0 (data.drop (4 + split.toNat)) rest
    if accepted then
      storePayload heap { hexFile with totalLength := hexFile.totalLength + rest } data
        split.toUInt8
    else .ok (false, heap, hexFile)
  else storePayload heap hexFile data (data.getD 0 0)

/-- A control record: its count and address field are fixed, and it only changes
fields of the structure. -/
def controlRecord (heap : Heap Block) (hexFile : IntelHexFormat) (data : List u8) (required : u8)
    (update : IntelHexFormat) : Run (Bool × Heap Block × IntelHexFormat) :=
  if data.getD 0 0 ≠ required then .ok (false, heap, hexFile)
  else if addressField data ≠ 0 then .ok (false, heap, hexFile)
  else .ok (true, heap, update)

/-- The switch over the record type. Segmented data records compute a split and
drop it; unknown types fall through to the final `TRUE`. -/
def processRecord (heap : Heap Block) (hexFile : IntelHexFormat) (data : List u8) :
    Run (Bool × Heap Block × IntelHexFormat) :=
  let kind := data.getD 3 0
  if kind = 0 then
    match hexFile.fileMode with
    | .linear => linearRecord heap hexFile data
    | .segmented => .ok (true, heap, hexFile)
    | .none => .ok (true, heap, hexFile)
  else if kind = 1 then
    controlRecord heap hexFile data 0 { hexFile with endOfFile := true }
  else if kind = 2 then
    controlRecord heap hexFile data 0
      { hexFile with addressBase := (addressField data).toUInt32 <<< 4, fileMode := .segmented }
  else if kind = 3 then
    controlRecord heap hexFile data 4 { hexFile with startSegmentAddress := bigEndianWord data }
  else if kind = 4 then
    controlRecord heap hexFile data 2
      { hexFile with
        addressBase := ((data.getD 4 0).toUInt32 <<< 24) + ((data.getD 5 0).toUInt32 <<< 16)
        fileMode := .linear }
  else if kind = 5 then
    controlRecord heap hexFile data 4 { hexFile with startLinearAddress := bigEndianWord data }
  else .ok (true, heap, hexFile)

/-- The checksum loop: the sum of the bytes modulo 256. A record with its checksum sums to
zero. -/
def checksum (bytes : List u8) : u8 := bytes.foldl (· + ·) 0

/-- `ParseOneLine`. Blank lines, short lines and lines without a colon are accepted without
effect. The last character, the newline, is cut off unseen, so a last line without one loses a
digit. -/
def parseOneLine (heap : Heap Block) (hexFile : IntelHexFormat) (str : List u8)
    (data : LocalBuffer) : Run (Bool × Heap Block × IntelHexFormat) :=
  if str.head? = some (code '\n') then .ok (true, heap, hexFile)
  else
    let strLen := strlen str
    if strLen < 11 ∨ str.head? ≠ some (code ':') then .ok (true, heap, hexFile)
    else do
      let trimmed := str.take (strLen - 1)
      let (dataLen, data) ← hexToByteArray data.bytes 256 (trimmed.drop 1) true
      if dataLen.toNat ≠ (strLen - 1) / 2 then .ok (false, heap, hexFile)
      else if (data.getD 0 0).toUInt32 ≠ dataLen - 5 then .ok (false, heap, hexFile)
      else if checksum (data.take dataLen.toNat) ≠ 0 then .ok (false, heap, hexFile)
      else processRecord heap hexFile data

/-- The reading loop: parse line after line, up to and including the first that
returns `FALSE`. Every line comes with the content its local array happens to have. -/
def parseLines (heap : Heap Block) (hexFile : IntelHexFormat) :
    List (List u8 × LocalBuffer) → Run (Bool × Heap Block × IntelHexFormat)
  | [] => .ok (true, heap, hexFile)
  | (line, data) :: rest => do
    let (accepted, heap, hexFile) ← parseOneLine heap hexFile line data
    if accepted then parseLines heap hexFile rest else .ok (false, heap, hexFile)

/-- Reading goes on with the later lines when all earlier ones are accepted. A refused line ends
the reading, so the later ones are not looked at. -/
theorem parse_lines_append (heap : Heap Block) (hexFile : IntelHexFormat)
    (front back : List (List u8 × LocalBuffer)) :
    parseLines heap hexFile (front ++ back) = (do
      let (accepted, heap, hexFile) ← parseLines heap hexFile front
      if accepted then parseLines heap hexFile back else .ok (false, heap, hexFile)) := by
  induction front generalizing heap hexFile with
  | nil => rfl
  | cons line rest inductionHypothesis =>
    rw [List.cons_append, parseLines, parseLines]
    cases parseOneLine heap hexFile line.1 line.2 with
    | error fault => rfl
    | ok result =>
      obtain ⟨accepted, changed, relinked⟩ := result
      cases accepted with
      | false => rfl
      | true => simpa using inductionHypothesis changed relinked

/-! ## The text checks -/

/-- The array after decoding a text: the packed digits in front of what was there. Bytes behind
them keep the initial content of the array. -/
def decoded (data : LocalBuffer) (text : List u8) : List u8 :=
  pack (digits text) ++ data.bytes.drop (pack (digits text)).length

/-- The array has 256 bytes after decoding as well. The text is short enough not to be decoded
past its end. -/
theorem decoded_length (data : LocalBuffer) (text : List u8) (short : text.length ≤ 512) :
    (decoded data text).length = 256 := by
  have fewer := digits_length text
  have packed : (pack (digits text)).length ≤ 256 := by
    rw [pack_length]
    omega
  rw [decoded, List.length_append, List.length_drop, data.size]
  omega

/-- The checks made before the record type is looked at. Count and checksum are compared with half
the length of the text, which includes characters passed over. -/
def TextChecks (data : LocalBuffer) (text : List u8) : Prop :=
  text.length ≤ 512 ∧
    ((decoded data text).getD 0 0).toNat + 5 = (text.length + 1) / 2 ∧
    checksum ((decoded data text).take ((text.length + 1) / 2)) = 0

/-- The checks on a line's text can be decided. -/
instance (data : LocalBuffer) (text : List u8) : Decidable (TextChecks data text) :=
  inferInstanceAs (Decidable (_ ∧ _ ∧ _))

/-- A colon line is decided by the text checks on everything between the colon and
its last character, and then by the record it decodes to. The last character goes
unread, be it a newline or not. -/
theorem parse_colon_line (heap : Heap Block) (hexFile : IntelHexFormat) (text : List u8)
    (last : u8) (data : LocalBuffer) (long : 9 ≤ text.length)
    (plain : ∀ ch ∈ text, ch ≠ 0) (lastPlain : last ≠ 0) :
    parseOneLine heap hexFile (code ':' :: (text ++ [last])) data =
      if TextChecks data text then processRecord heap hexFile (decoded data text)
      else .ok (false, heap, hexFile) := by
  have plainLine : ∀ ch ∈ code ':' :: (text ++ [last]), ch ≠ 0 := by
    intro ch member
    simp only [List.mem_cons, List.mem_append, List.not_mem_nil, or_false] at member
    rcases member with rfl | inText | rfl
    · decide
    · exact plain ch inText
    · exact lastPlain
  have whole : strlen (code ':' :: (text ++ [last])) = text.length + 2 := by
    rw [strlen, List.takeWhile_eq_self_iff.mpr (by simpa using plainLine)]
    simp
  have colon : ¬ code ':' = code '\n' := by decide
  have enough : ¬ (text.length + 2 < 11 ∨ ¬ True) := by
    simp only [not_true_eq_false, or_false]
    omega
  have trimmed : ((code ':' :: (text ++ [last])).take (text.length + 2 - 1)).drop 1 = text := by
    simp
  have half : (text.length + 2 - 1) / 2 = (text.length + 1) / 2 := by omega
  have unfolded : parseOneLine heap hexFile (code ':' :: (text ++ [last])) data = (do
      let (dataLen, filled) ← hexToByteArray data.bytes 256 text true
      if dataLen.toNat ≠ (text.length + 1) / 2 then .ok (false, heap, hexFile)
      else if (filled.getD 0 0).toUInt32 ≠ dataLen - 5 then .ok (false, heap, hexFile)
      else if checksum (filled.take dataLen.toNat) ≠ 0 then .ok (false, heap, hexFile)
      else processRecord heap hexFile filled) := by
    simp only [parseOneLine, List.head?_cons, Option.some.injEq, colon, if_false, whole, ne_eq,
      not_true_eq_false, trimmed, half]
    rw [if_neg (by simp only [or_false]; omega)]
  rw [unfolded]
  by_cases short : text.length ≤ 512
  · have result :=
      hex_to_byte_array_skipping data.bytes text 256 plain short (by rw [data.size]; omega)
    have counted : (UInt32.ofNat ((text.length + 1) / 2)).toNat = (text.length + 1) / 2 :=
      UInt32.toNat_ofNat_of_lt' (by rw [UInt32.size]; omega)
    have fiveLess :
        (UInt32.ofNat ((text.length + 1) / 2) - 5).toNat = (text.length + 1) / 2 - 5 := by
      have five : (5 : u32).toNat = 5 := rfl
      rw [UInt32.toNat_sub_of_le, counted, five]
      rw [UInt32.le_iff_toNat_le, counted, five]
      omega
    have count :
        ((decoded data text).getD 0 0).toUInt32 ≠ UInt32.ofNat ((text.length + 1) / 2) - 5 ↔
          ¬ ((decoded data text).getD 0 0).toNat + 5 = (text.length + 1) / 2 := by
      rw [ne_eq, ← UInt32.toNat_inj, UInt8.toNat_toUInt32, fiveLess]
      omega
    rw [result, ok_bind]
    simp only [counted, ne_eq, not_true_eq_false, if_false]
    have filled :
        pack (digits text) ++ data.bytes.drop (pack (digits text)).length = decoded data text := rfl
    rw [filled]
    by_cases countGood : ((decoded data text).getD 0 0).toNat + 5 = (text.length + 1) / 2
    · rw [if_neg (fun bad => (count.mp bad) countGood)]
      by_cases sumGood : checksum ((decoded data text).take ((text.length + 1) / 2)) = 0
      · rw [if_neg (not_not.mpr sumGood), if_pos ⟨short, countGood, sumGood⟩]
      · rw [if_pos sumGood, if_neg (fun checks => sumGood checks.2.2)]
    · rw [if_pos (count.mpr countGood), if_neg (fun checks => countGood checks.2.1)]
  · obtain ⟨filled, result⟩ := hex_to_byte_array_long data.bytes text plain (by omega) data.size
    have full : (256 : u32).toNat = 256 := rfl
    rw [result, ok_bind, if_neg (fun checks : TextChecks data text => short checks.1)]
    simp only [full]
    rw [if_pos (by omega)]

end EffiLib.IntelHex
