import EffiLib.IntelHex.HexText

/-!
# Hexadecimal text and back

`bytesMapHexStr` counts the bytes in 16 bits and compares the count with a 32-bit length. Up
to 65535 bytes it ends, and what it wrote decodes to the bytes again, whether or not the
decoder skips characters. From 65536 bytes on the count starts over before it reaches the
length, so no number of passes ends the loop.
-/

namespace EffiLib.IntelHex

open Buffers

/-- `BytesMapHexStr` when its loop may make this many passes. The source's loop has no such bound;
a run that does not end is one that ends under none. -/
def bytesMapHexStrWithin (passes : Nat) (str bytes : List u8) (len : u32) : Run (List u8) := do
  let str ← mapFrom passes str bytes len 0
  store str (len * 2).toNat 0

/-! ## Decoding -/

/-- On digits alone it makes no difference whether other characters are skipped. Proof: by
induction on the text. -/
theorem decode_valid (skipInvalid : Bool) (text data : List u8) (oddDigit : Bool)
    (valid : ∀ ch ∈ text, (hexDigit ch).isSome) :
    decodeFrom skipInvalid text data oddDigit = decodeFrom true text data oddDigit := by
  induction text generalizing data oddDigit with
  | nil => rfl
  | cons ch rest inductionHypothesis =>
    obtain ⟨tmp, value⟩ := Option.isSome_iff_exists.mp (valid ch List.mem_cons_self)
    have later (data : List u8) (oddDigit : Bool) :=
      inductionHypothesis data oddDigit fun ch member => valid ch (List.mem_cons_of_mem _ member)
    cases data with
    | nil => simp only [decodeFrom, value]
    | cons byte following =>
      cases oddDigit with
      | false => simp only [decodeFrom, value, later]
      | true => simp only [decodeFrom, value, later]

/-- The text of bytes holds digits alone. So the decoder has nothing to skip. -/
theorem hex_text_valid (bytes : List u8) : ∀ ch ∈ hexText bytes, (hexDigit ch).isSome :=
  encodes_valid _ _ (hex_text_encodes bytes)

/-- The string that the encoder leaves decodes to the bytes. The rest of the array keeps what it
held. -/
theorem decode_hex_text (bytes data rest : List u8) (dataLen : u32) (skipInvalid : Bool)
    (capacity : bytes.length ≤ dataLen.toNat) (small : dataLen.toNat < 2 ^ 31)
    (allocated : dataLen.toNat ≤ data.length) :
    hexToByteArray data dataLen (hexText bytes ++ 0 :: rest) skipInvalid =
      .ok (UInt32.ofNat bytes.length, bytes ++ data.drop bytes.length) := by
  have values : pack (digits (hexText bytes)) = bytes := by
    rw [encodes_digits _ _ (hex_text_encodes bytes), pack_nibbles]
  have decoded := (decode_skipping (hexText bytes) data).1 (by rw [values]; omega)
  have whole : strlen (hexText bytes ++ 0 :: rest) = 2 * bytes.length := by
    rw [strlen, printed_text _ _ fun ch member => digit_nonzero ch (hex_text_valid bytes ch member),
      hex_text_length]
  have doubled : (dataLen * 2).toNat = 2 * dataLen.toNat := by
    have factor : (2 : u32).toNat = 2 := rfl
    rw [UInt32.toNat_mul, factor]
    omega
  have uncapped : ¬ 2 * bytes.length > 2 * dataLen.toNat := by omega
  have taken : (hexText bytes ++ 0 :: rest).take (2 * bytes.length) = hexText bytes :=
    List.take_left' (hex_text_length bytes)
  have half : (2 * bytes.length + 1) / 2 = bytes.length := by omega
  rw [values] at decoded
  simp only [hexToByteArray, whole, doubled, if_neg uncapped, taken, ok_bind, if_true, half,
    decode_valid skipInvalid _ data false (hex_text_valid bytes), decoded]

/-! ## The loop that does not end -/

/-- One pass changes two characters and goes on behind them. The count that wraps shows up in `i +
1`. -/
theorem map_pass (str bytes : List u8) (len : u32) (i : u16) (passes : Nat)
    (running : i.toNat < len.toNat) (enough : len.toNat ≤ bytes.length)
    (room : 2 * i.toNat + 1 < str.length) :
    ∃ changed, changed.length = str.length ∧
      mapFrom (passes + 1) str bytes len i = mapFrom passes changed bytes len (i + 1) := by
  have inside : i.toNat < bytes.length := Nat.lt_of_lt_of_le running enough
  have before : i.toUInt32 < len := by
    rw [UInt32.lt_iff_toNat_lt, UInt16.toNat_toUInt32]
    exact running
  have high := load_digit bytes[i.toNat] (bytes[i.toNat] / 16) (by simp [nibbles])
  have low := load_digit bytes[i.toNat] (bytes[i.toNat] % 16) (by simp [nibbles])
  let half := str.set (i.toNat * 2) (digitCode (bytes[i.toNat] / 16))
  have length : half.length = str.length := List.length_set
  refine ⟨half.set (i.toNat * 2 + 1) (digitCode (bytes[i.toNat] % 16)),
    List.length_set.trans length, ?_⟩
  rw [mapFrom, if_pos before, load_inside bytes _ inside, ok_bind, high, ok_bind,
    store_inside str _ _ (by omega), ok_bind, low, ok_bind,
    store_inside half _ _ (by omega), ok_bind]

/-- With a length beyond its range the counter never reaches the end, however many passes
are made. -/
theorem map_from_unending (passes : Nat) (str bytes : List u8) (len : u32) (i : u16)
    (long : 2 ^ 16 ≤ len.toNat) (enough : len.toNat ≤ bytes.length)
    (room : 2 * len.toNat ≤ str.length) :
    mapFrom passes str bytes len i = .error .unfinished := by
  induction passes generalizing str i with
  | zero => rfl
  | succ passes inductionHypothesis =>
    have counter : i.toNat < 2 ^ 16 := i.toNat_lt
    obtain ⟨changed, length, step⟩ :=
      map_pass str bytes len i passes (by omega) enough (by omega)
    rw [step]
    exact inductionHypothesis changed (i + 1) (by rw [length]; exact room)

/-! ## Both ways -/

/-- The encoder ends, with the digits of the bytes and the terminator in front of what it
leaves of the text array, and the decoder returns the number of bytes and the bytes. -/
def HexRoundTrip (str bytes data : List u8) (dataLen : u32) (skipInvalid : Bool) : Prop :=
  ∃ passes text decoded,
    bytesMapHexStrWithin passes str bytes (UInt32.ofNat bytes.length) = .ok text ∧
    text = hexText bytes ++ 0 :: str.drop (2 * bytes.length + 1) ∧
    hexToByteArray data dataLen text skipInvalid = .ok (UInt32.ofNat bytes.length, decoded) ∧
    decoded = bytes ++ data.drop bytes.length

/-- A long encoding does not end. The counter of 16 bits never reaches the length. -/
theorem long_unfinished (passes : Nat) (str bytes : List u8) (long : 2 ^ 16 ≤ bytes.length)
    (countable : 2 * bytes.length + 1 < 2 ^ 32) (room : 2 * bytes.length + 1 ≤ str.length) :
    bytesMapHexStrWithin passes str bytes (UInt32.ofNat bytes.length) = .error .unfinished := by
  have counted : (UInt32.ofNat bytes.length).toNat = bytes.length :=
    UInt32.toNat_ofNat_of_lt' (by simp only [UInt32.size]; omega)
  rw [bytesMapHexStrWithin, map_from_unending passes str bytes _ 0 (by omega) (by omega) (by omega),
    error_bind]

/-- Bytes go to hexadecimal text and back exactly when the counter can count them. The counter of
the encoder has 16 bits. Proof: from 65536 bytes on the condition of the loop is true for every
value of the counter. -/
theorem hex_round_trip_exactly (str bytes data : List u8) (dataLen : u32) (skipInvalid : Bool)
    (countable : 2 * bytes.length + 1 < 2 ^ 32) (room : 2 * bytes.length + 1 ≤ str.length)
    (capacity : bytes.length ≤ dataLen.toNat) (small : dataLen.toNat < 2 ^ 31)
    (allocated : dataLen.toNat ≤ data.length) :
    HexRoundTrip str bytes data dataLen skipInvalid ↔ bytes.length < 2 ^ 16 := by
  constructor
  · rintro ⟨passes, text, decoded, encoded, -⟩
    by_contra long
    rw [long_unfinished passes str bytes (Nat.le_of_not_lt long) countable room] at encoded
    cases encoded
  · intro short
    have counted : (UInt32.ofNat bytes.length).toNat = bytes.length :=
      UInt32.toNat_ofNat_of_lt' (by simp only [UInt32.size]; omega)
    have encoded := bytes_map_hex_str str bytes (UInt32.ofNat bytes.length) (by omega) (by omega)
      (by omega)
    rw [counted, List.take_length] at encoded
    exact ⟨2 ^ 16 + 1, _, _, encoded, rfl,
      decode_hex_text bytes data _ dataLen skipInvalid capacity small allocated, rfl⟩

/-- One byte goes to text and back, without a character to skip. The array has just the room for
the text and its terminator. -/
theorem one_byte_round_trip : HexRoundTrip [7, 7, 7] [0x1A] [5] 1 false :=
  (hex_round_trip_exactly [7, 7, 7] [0x1A] [5] 1 false (by decide) (by decide) (by decide)
    (by decide) (by decide)).mpr (by decide)

/-- The encoding of 65536 bytes never ends. The 16-bit counter never gets to that length. -/
theorem endless_encoding :
    ¬ HexRoundTrip (List.replicate 131073 0) (List.replicate 65536 0) (List.replicate 65536 0)
      65536 true := by
  rintro ⟨passes, text, decoded, encoded, -⟩
  rw [long_unfinished passes _ _ (by rw [List.length_replicate]; decide)
    (by rw [List.length_replicate]; decide)
    (by rw [List.length_replicate, List.length_replicate])] at encoded
  cases encoded

end EffiLib.IntelHex
