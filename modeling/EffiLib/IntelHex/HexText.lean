import EffiLib.IntelHex.Format

/-!
# Hexadecimal text and bytes

`hexToByteArray` decodes a C string into a byte array of bounded size. With
`skip_invalid` it passes over every character that is not a digit, yet the length
it returns is computed from the length of the text, so a text with other
characters leaves the end of the array as it was. `bytesMapHexStr` writes two
upper-case digits for each byte and a terminating zero.

A C string is the list of its characters; what follows a zero character is not
part of it, and the end of the list counts as the terminator.
-/

namespace EffiLib.IntelHex

open Buffers

/-- The code of a character of the source text. Only ASCII characters occur in the source. -/
abbrev code (character : Char) : u8 := UInt8.ofNat character.toNat

/-- `strlen`: the characters in front of the first zero. A list without a zero is counted
whole. -/
def strlen (text : List u8) : Nat := (text.takeWhile (· ≠ 0)).length

/-- The branches that turn one character into the value of a digit. Digits in both cases are
known, other characters have no value. -/
def hexDigit (ch : u8) : Option u8 :=
  if code '0' ≤ ch ∧ ch ≤ code '9' then some (ch - code '0')
  else if code 'a' ≤ ch ∧ ch ≤ code 'f' then some (ch - code 'a' + 10)
  else if code 'A' ≤ ch ∧ ch ≤ code 'F' then some (ch - code 'A' + 10)
  else none

/-- The decoding loop. The array argument begins where the data pointer stands;
the result is its final content, and whether the loop reached the end of the text
rather than the early return on a character that is not a digit. -/
def decodeFrom (skipInvalid : Bool) : List u8 → List u8 → Bool → Run (Bool × List u8)
  | [], data, _ => .ok (true, data)
  | ch :: rest, data, oddDigit =>
    match hexDigit ch with
    | none => if skipInvalid then decodeFrom skipInvalid rest data oddDigit else .ok (false, data)
    | some tmp =>
      match data with
      | [] => .error .outOfBounds
      | byte :: following =>
        if oddDigit then do
          let (complete, tail) ← decodeFrom skipInvalid rest following false
          .ok (complete, (byte ||| tmp) :: tail)
        else decodeFrom skipInvalid rest ((tmp <<< 4) :: following) true

/-- `HexToByteArray`, with the array as it is afterwards. The length it returns is that of the
text, halved and rounded up, whether or not characters were passed over. -/
def hexToByteArray (data : List u8) (dataLen : u32) (hex : List u8) (skipInvalid : Bool) :
    Run (u32 × List u8) := do
  let strLen := if strlen hex > (dataLen * 2).toNat then (dataLen * 2).toNat else strlen hex
  let (complete, data) ← decodeFrom skipInvalid (hex.take strLen) data false
  .ok (if complete then UInt32.ofNat ((strLen + 1) / 2) else 0, data)

/-- `HexList`, the sixteen upper-case digits. Both halves of a byte index it, so no index is
outside. -/
def hexList : List u8 := "0123456789ABCDEF".toList.map code

/-- The loop of `BytesMapHexStr`. Its counter is a 16-bit word, so with more than
65535 bytes it returns to zero before it can reach the length; such a run never
leaves the loop and ends as unfinished here. -/
def mapFrom : Nat → List u8 → List u8 → u32 → u16 → Run (List u8)
  | 0, _, _, _, _ => .error .unfinished
  | fuel + 1, str, bytes, len, i =>
    if i.toUInt32 < len then do
      let byte ← load bytes i.toNat
      let high ← load hexList (byte / 16).toNat
      let str ← store str (i.toNat * 2) high
      let low ← load hexList (byte % 16).toNat
      let str ← store str (i.toNat * 2 + 1) low
      mapFrom fuel str bytes len (i + 1)
    else .ok str

/-- `BytesMapHexStr`: the text array afterwards, including the terminating zero. The zero is put
behind `len * 2` characters, where the product wraps like the source's. -/
def bytesMapHexStr (str bytes : List u8) (len : u32) : Run (List u8) := do
  let str ← mapFrom (2 ^ 16 + 1) str bytes len 0
  store str (len * 2).toNat 0

/-! ## What the decoder computes -/

/-- Pack digit values into bytes, high half first; a last single digit fills the high half only.
This is what the decoder leaves in the array. -/
def pack : List u8 → List u8
  | [] => []
  | [high] => [high <<< 4]
  | high :: low :: rest => ((high <<< 4) ||| low) :: pack rest

/-- The digit values among the characters of a text. The others are passed over. -/
def digits (text : List u8) : List u8 := text.filterMap hexDigit

/-- Two digit values make a byte, and an odd last one a byte of its own. Proof: by induction, two
values at a time. -/
theorem pack_length (values : List u8) : (pack values).length = (values.length + 1) / 2 := by
  induction values using pack.induct with
  | case1 => rfl
  | case2 high => simp [pack]
  | case3 high low rest inductionHypothesis =>
    simp only [pack, List.length_cons, inductionHypothesis]
    omega

/-- Skipped characters only make the digits fewer than the text. Each character gives one digit
value or none. -/
theorem digits_length (text : List u8) : (digits text).length ≤ text.length :=
  List.length_filterMap_le hexDigit text

/-- The decoder replaces the front of the array by the packed digits, whether it
stands between two bytes or behind the high half of one. The induction follows the
text; a skipped character changes nothing. -/
theorem decode_skipping (text data : List u8) :
    ((pack (digits text)).length ≤ data.length →
      decodeFrom true text data false =
        .ok (true, pack (digits text) ++ data.drop (pack (digits text)).length)) ∧
    ∀ (high : u8) (following : List u8), data = (high <<< 4) :: following →
      (pack (high :: digits text)).length ≤ data.length →
      decodeFrom true text data true =
        .ok (true,
          pack (high :: digits text) ++ data.drop (pack (high :: digits text)).length) := by
  induction text generalizing data with
  | nil =>
    refine ⟨fun _ => rfl, ?_⟩
    rintro high following rfl _
    rfl
  | cons ch rest inductionHypothesis =>
    cases value : hexDigit ch with
    | none =>
      have same : digits (ch :: rest) = digits rest := by simp [digits, value]
      simp only [decodeFrom, value, if_true, same]
      exact inductionHypothesis data
    | some tmp =>
      have next : digits (ch :: rest) = tmp :: digits rest := by simp [digits, value]
      rw [next]
      constructor
      · intro room
        cases data with
        | nil => cases left : digits rest <;> simp [pack, left] at room
        | cons byte following =>
          simp only [decodeFrom, value, Bool.false_eq_true, if_false]
          have behind := (inductionHypothesis ((tmp <<< 4) :: following)).2 tmp following rfl
            (by simpa using room)
          rw [behind]
          cases digits rest <;> simp [pack]
      · rintro high following rfl room
        have tailRoom : (pack (digits rest)).length ≤ following.length := by
          simp only [pack, List.length_cons] at room
          omega
        simp only [decodeFrom, value, if_true, (inductionHypothesis following).1 tailRoom, ok_bind,
          pack]
        simp

/-- Decoding a text into an array with room for it. The returned length counts the
characters of the text, digits or not. -/
theorem hex_to_byte_array_skipping (data text : List u8) (dataLen : u32)
    (plain : ∀ ch ∈ text, ch ≠ 0) (room : text.length ≤ (dataLen * 2).toNat)
    (size : (text.length + 1) / 2 ≤ data.length) :
    hexToByteArray data dataLen text true =
      .ok (UInt32.ofNat ((text.length + 1) / 2),
        pack (digits text) ++ data.drop (pack (digits text)).length) := by
  have whole : strlen text = text.length := by
    rw [strlen, List.takeWhile_eq_self_iff.mpr (by simpa using plain)]
  have fits : ¬ text.length > (dataLen * 2).toNat := Nat.not_lt.mpr room
  have packed : (pack (digits text)).length ≤ data.length := by
    have counted := digits_length text
    rw [pack_length]
    omega
  simp only [hexToByteArray, whole, fits, if_false, List.take_length,
    (decode_skipping text data).1 packed, ok_bind, if_true]

/-- A text longer than the array has its tail ignored, and the returned length is
the array's. -/
theorem hex_to_byte_array_long (data text : List u8) (plain : ∀ ch ∈ text, ch ≠ 0)
    (long : 512 < text.length) (size : data.length = 256) :
    ∃ filled, hexToByteArray data 256 text true = .ok (256, filled) := by
  have whole : strlen text = text.length := by
    rw [strlen, List.takeWhile_eq_self_iff.mpr (by simpa using plain)]
  have capacity : ((256 : u32) * 2).toNat = 512 := rfl
  have packed : (pack (digits (text.take 512))).length ≤ data.length := by
    have counted := digits_length (text.take 512)
    rw [List.length_take] at counted
    rw [pack_length]
    omega
  refine ⟨pack (digits (text.take 512)) ++ data.drop (pack (digits (text.take 512))).length, ?_⟩
  simp only [hexToByteArray, capacity, whole, gt_iff_lt, long, if_true,
    (decode_skipping (text.take 512) data).1 packed, ok_bind]
  rfl

/-! ## Digits for bytes -/

/-- The two halves of a byte, high half first. Both are below 16. -/
def nibbles (byte : u8) : List u8 := [byte / 16, byte % 16]

/-- The upper-case digit of a half. Only halves of a byte are looked up. -/
def digitCode (value : u8) : u8 := hexList.getD value.toNat 0

/-- The upper-case text of a list of bytes. It is what the writer prints for them. -/
def hexText (bytes : List u8) : List u8 := (bytes.flatMap nibbles).map digitCode

/-- The text consists of digits, in either case, that spell the bytes in order. It relates a text
to the bytes without computing either of them. -/
def Encodes (text bytes : List u8) : Prop :=
  text.map hexDigit = (bytes.flatMap nibbles).map some

/-- Sixteen digits, each read back as its own value. All of them are tried. -/
theorem hex_digit_code (value : u8) (small : value < 16) :
    hexDigit (digitCode value) = some value := by
  have checked : ∀ index : Fin 16, hexDigit (digitCode (UInt8.ofNat index)) =
      some (UInt8.ofNat index) := by
    decide +kernel
  have bound : value.toNat < 16 := UInt8.lt_iff_toNat_lt.mp small
  simpa using checked ⟨value.toNat, bound⟩

/-- A byte is put together again from its halves. All 256 bytes are tried. -/
theorem pack_halves (byte : u8) : ((byte / 16) <<< 4) ||| (byte % 16) = byte := by
  have checked : ∀ index : Fin 256,
      ((UInt8.ofNat index / 16) <<< 4) ||| (UInt8.ofNat index % 16) = UInt8.ofNat index := by
    decide +kernel
  simpa using checked ⟨byte.toNat, byte.toNat_lt⟩

/-- A half of a byte is a digit value. So there is a digit for it. -/
theorem half_small (byte value : u8) (member : value ∈ nibbles byte) : value < 16 := by
  have bound := byte.toNat_lt
  simp only [nibbles, List.mem_cons, List.not_mem_nil, or_false] at member
  rw [UInt8.lt_iff_toNat_lt]
  rcases member with rfl | rfl
  · simp only [UInt8.toNat_div, UInt8.reduceToNat]
    omega
  · simp only [UInt8.toNat_mod, UInt8.reduceToNat]
    omega

/-- Two halves a byte. Proof: by induction on the bytes. -/
theorem nibbles_length (bytes : List u8) : (bytes.flatMap nibbles).length = 2 * bytes.length := by
  induction bytes with
  | nil => rfl
  | cons byte rest inductionHypothesis =>
    simp only [List.flatMap_cons, List.length_append, inductionHypothesis, nibbles,
      List.length_cons, List.length_nil]
    omega

/-- Two characters a byte. Each half of a byte has one digit. -/
theorem hex_text_length (bytes : List u8) : (hexText bytes).length = 2 * bytes.length := by
  rw [hexText, List.length_map, nibbles_length]

/-- Packing the halves of bytes gives the bytes. Proof: by induction on the bytes. -/
theorem pack_nibbles (bytes : List u8) : pack (bytes.flatMap nibbles) = bytes := by
  induction bytes with
  | nil => rfl
  | cons byte rest inductionHypothesis =>
    simp only [List.flatMap_cons, nibbles, List.cons_append, List.nil_append, pack, pack_halves]
    exact congrArg (byte :: ·) inductionHypothesis

/-- Upper-case text encodes its bytes. Lower-case text encodes them as well. -/
theorem hex_text_encodes (bytes : List u8) : Encodes (hexText bytes) bytes := by
  simp only [Encodes, hexText, List.map_map]
  apply List.map_congr_left
  intro value member
  obtain ⟨byte, _, half⟩ := List.mem_flatMap.mp member
  exact hex_digit_code value (half_small byte value half)

/-- The digit values of an encoding are the halves of its bytes. No character is left out. -/
theorem encodes_digits (text bytes : List u8) (encodes : Encodes text bytes) :
    digits text = bytes.flatMap nibbles := by
  have values := congrArg (List.filterMap id) encodes
  simpa [List.filterMap_map, digits] using values

/-- Text that encodes bytes has two characters for each. There is one for each half. -/
theorem encodes_length (text bytes : List u8) (encodes : Encodes text bytes) :
    text.length = 2 * bytes.length := by
  have lengths := congrArg List.length encodes
  rwa [List.length_map, List.length_map, nibbles_length] at lengths

/-- Every character of an encoding is a digit. So decoding skips none of them. -/
theorem encodes_valid (text bytes : List u8) (encodes : Encodes text bytes) :
    ∀ ch ∈ text, (hexDigit ch).isSome := by
  intro ch member
  have mapped : hexDigit ch ∈ text.map hexDigit := List.mem_map.mpr ⟨ch, member, rfl⟩
  rw [encodes] at mapped
  obtain ⟨value, _, same⟩ := List.mem_map.mp mapped
  exact same ▸ rfl

/-- No digit is the terminator. So a text of digits is read to its end. -/
theorem digit_nonzero (ch : u8) (valid : (hexDigit ch).isSome) : ch ≠ 0 := by
  rintro rfl
  exact absurd valid (by decide)

/-- Digits have values below sixteen. All characters are tried. -/
theorem digit_small (ch value : u8) (found : hexDigit ch = some value) : value < 16 := by
  have checked : ∀ index : Fin 256, (hexDigit (UInt8.ofNat index)).all (· < 16) = true := by
    decide +kernel
  have small := checked ⟨ch.toNat, ch.toNat_lt⟩
  simpa [found] using small

/-- Two halves are read back from the byte packed from them. So packing loses no digit. -/
theorem nibbles_pack (high low : u8) (highSmall : high < 16) (lowSmall : low < 16) :
    nibbles ((high <<< 4) ||| low) = [high, low] := by
  have checked : ∀ left right : Fin 16,
      nibbles ((UInt8.ofNat left <<< 4) ||| UInt8.ofNat right) = [UInt8.ofNat left,
        UInt8.ofNat right] := by
    decide +kernel
  simpa using checked ⟨high.toNat, UInt8.lt_iff_toNat_lt.mp highSmall⟩
    ⟨low.toNat, UInt8.lt_iff_toNat_lt.mp lowSmall⟩

/-- A text of digits, in even number, encodes the bytes packed from it. The
induction takes two characters at a time, as the packing does. -/
theorem digits_encode (text : List u8) (valid : ∀ ch ∈ text, (hexDigit ch).isSome)
    (even : text.length % 2 = 0) : Encodes text (pack (digits text)) := by
  induction text using pack.induct with
  | case1 => rfl
  | case2 high => simp at even
  | case3 high low rest inductionHypothesis =>
    obtain ⟨highValue, highFound⟩ := Option.isSome_iff_exists.mp (valid high (by simp))
    obtain ⟨lowValue, lowFound⟩ := Option.isSome_iff_exists.mp (valid low (by simp))
    have restEven : rest.length % 2 = 0 := by
      simp only [List.length_cons] at even
      omega
    have remaining := inductionHypothesis (fun ch member => valid ch (by simp [member])) restEven
    have split : digits (high :: low :: rest) = highValue :: lowValue :: digits rest := by
      simp [digits, highFound, lowFound]
    rw [split, pack, Encodes, List.flatMap_cons,
      nibbles_pack highValue lowValue (digit_small high _ highFound) (digit_small low _ lowFound)]
    simp only [List.map_cons, List.cons_append, List.nil_append, highFound, lowFound,
      ← remaining.symm]

/-! ## What the encoder writes -/

/-- The digit table has an entry for every half. So the encoder does not read outside of the
table. -/
theorem load_digit (byte value : u8) (half : value ∈ nibbles byte) :
    load hexList value.toNat = .ok (digitCode value) := by
  have inside : value.toNat < hexList.length :=
    UInt8.lt_iff_toNat_lt.mp (half_small byte value half)
  rw [load_inside hexList value.toNat inside, digitCode, List.getD_eq_getElem _ _ inside]

/-- The loop writes two digits for each remaining byte and leaves the rest of the
array. The induction counts the bytes still to be written. -/
theorem map_from_exact (bytes : List u8) (len : u32) (remaining fuel : Nat) (i : u16)
    (front rest : List u8) (position : i.toNat + remaining = len.toNat)
    (enough : len.toNat ≤ bytes.length) (short : len.toNat < 2 ^ 16) (fueled : remaining < fuel)
    (written : front.length = 2 * i.toNat) (room : 2 * remaining ≤ rest.length) :
    mapFrom fuel (front ++ rest) bytes len i =
      .ok (front ++ hexText ((bytes.drop i.toNat).take remaining) ++
        rest.drop (2 * remaining)) := by
  induction remaining generalizing fuel i front rest with
  | zero =>
    obtain ⟨fuel, rfl⟩ : ∃ less, fuel = less + 1 := ⟨fuel - 1, by omega⟩
    have finished : ¬ i.toUInt32 < len := by
      rw [UInt32.lt_iff_toNat_lt, UInt16.toNat_toUInt32]
      omega
    simp [mapFrom, finished, hexText]
  | succ remaining inductionHypothesis =>
    obtain ⟨fuel, rfl⟩ : ∃ less, fuel = less + 1 := ⟨fuel - 1, by omega⟩
    obtain ⟨first, second, rest, rfl⟩ : ∃ first second later, rest = first :: second :: later := by
      match rest, room with
      | first :: second :: later, _ => exact ⟨first, second, later, rfl⟩
      | [_], room => exact absurd room (by simp only [List.length_singleton]; omega)
      | [], room => exact absurd room (by simp)
    have running : i.toUInt32 < len := by
      rw [UInt32.lt_iff_toNat_lt, UInt16.toNat_toUInt32]
      omega
    have inside : i.toNat < bytes.length := by omega
    let byte := bytes[i.toNat]
    have high := load_digit byte (byte / 16) (by simp [nibbles])
    have low := load_digit byte (byte % 16) (by simp [nibbles])
    have next : (i + 1).toNat = i.toNat + 1 := by
      rw [UInt16.toNat_add]
      exact Nat.mod_eq_of_lt (by simp; omega)
    have step : mapFrom (fuel + 1) (front ++ first :: second :: rest) bytes len i =
        mapFrom fuel ((front ++ [digitCode (byte / 16), digitCode (byte % 16)]) ++ rest) bytes len
          (i + 1) := by
      simp only [mapFrom, running, if_true, load_inside bytes _ inside, ok_bind]
      rw [show load hexList (bytes[i.toNat] / 16).toNat = _ from high, ok_bind,
        store_next front (second :: rest) first _ _ (by omega), ok_bind,
        show load hexList (bytes[i.toNat] % 16).toNat = _ from low, ok_bind]
      have regroup : front ++ digitCode (byte / 16) :: second :: rest =
          (front ++ [digitCode (byte / 16)]) ++ second :: rest := by simp
      rw [regroup, store_next _ rest second _ _ (by simp; omega), ok_bind]
      simp
    rw [step, inductionHypothesis fuel (i + 1) _ rest (by omega) (by omega)
      (by simp only [List.length_append, List.length_cons, List.length_nil]; omega)
      (by simp only [List.length_cons] at room; omega), next]
    have taken : (bytes.drop i.toNat).take (remaining + 1) =
        byte :: (bytes.drop (i.toNat + 1)).take remaining := by
      rw [List.drop_eq_getElem_cons inside, List.take_succ_cons]
    have dropped : (first :: second :: rest).drop (2 * (remaining + 1)) =
        rest.drop (2 * remaining) := by
      rw [show 2 * (remaining + 1) = 2 * remaining + 2 by omega]
      rfl
    rw [taken, dropped]
    simp [hexText, nibbles]

/-- `BytesMapHexStr` writes the upper-case text of the bytes and the terminator. What stood behind
the terminator stays. Fewer than 65536 bytes are needed, because the counter of the loop is a
16-bit word. -/
theorem bytes_map_hex_str (str bytes : List u8) (len : u32)
    (enough : len.toNat ≤ bytes.length) (short : len.toNat < 2 ^ 16)
    (room : 2 * len.toNat + 1 ≤ str.length) :
    bytesMapHexStr str bytes len =
      .ok (hexText (bytes.take len.toNat) ++ 0 :: str.drop (2 * len.toNat + 1)) := by
  have looped := map_from_exact bytes len len.toNat (2 ^ 16 + 1) 0 [] str (by simp) enough short
    (by omega) (by simp) (by omega)
  have doubled : (len * 2).toNat = 2 * len.toNat := by
    have factor : (2 : u32).toNat = 2 := rfl
    rw [UInt32.toNat_mul, factor]
    omega
  have inside : 2 * len.toNat < str.length := by omega
  have size : (hexText (bytes.take len.toNat)).length = 2 * len.toNat := by
    rw [hex_text_length, List.length_take, Nat.min_eq_left enough]
  simp only [List.nil_append, UInt16.reduceToNat, List.drop_zero] at looped
  rw [bytesMapHexStr, looped, ok_bind, doubled, List.drop_eq_getElem_cons inside,
    store_next _ _ _ _ _ size]

/-- The printed text ends in front of the terminator. What stands behind it is not printed. -/
theorem printed_text (text rest : List u8) (plain : ∀ ch ∈ text, ch ≠ 0) :
    (text ++ 0 :: rest).takeWhile (· ≠ 0) = text := by
  rw [List.takeWhile_append_of_pos (by simpa using plain)]
  simp

end EffiLib.IntelHex
