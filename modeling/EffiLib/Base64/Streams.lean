import EffiLib.Base64.Decoder

/-!
# Streams in base64

The wrappers encode and decode a whole stream in pieces of the size of their buffer. The text
of a stream is the one that base64 gives for the stream as a whole, in lines of 57 bytes, each
ended by a newline; the line that is not full comes last and is there even when it is empty.
Decoding gives back the stream, whatever the sizes of the two buffers are.
-/

namespace EffiLib.Base64

open Buffers Transducers

/-- `new char[size]` for a size that is an `int`: the characters may be anything. The sizes of the
wrappers are of this type. -/
def newChars (fresh : Nat → char) (size : Nat) : Run (List char) :=
  if size < 2 ^ 31 then .ok ((List.range size).map fresh) else .error .outOfBounds

/-- The loop body of `encoder::encode`. The buffer is used again for the next piece. -/
def encodePiece (state : EncodeState × List char) (plaintext : List char) :
    Run ((EncodeState × List char) × List char) := do
  let (codelength, code, after) ← encodeBlock plaintext state.2 state.1
  .ok ((after, code), code.take codelength)

/-- `encoder::encode`. The fuel is enough, as every pass but the last takes a character. -/
def encodeStream (bufferSize : Nat) (fresh : Nat → char) (istream : List char) :
    Run (List char) := do
  let code ← newChars fresh (2 * bufferSize)
  let ((state, code), ostream) ←
    pump bufferSize encodePiece (istream.length + 1) (initEncodestate, code) istream []
  let (codelength, code) ← encodeBlockend code state
  .ok (ostream ++ code.take codelength)

/-- The loop body of `decoder::decode`. The buffer is used again for the next piece. -/
def decodePiece (state : DecodeState × List char) (code : List char) :
    Run ((DecodeState × List char) × List char) := do
  let (plainlength, plaintext, after) ← decodeBlock code state.2 state.1
  .ok ((after, plaintext), plaintext.take plainlength)

/-- `decoder::decode`. Nothing is written behind the last piece. -/
def decodeStream (bufferSize : Nat) (fresh : Nat → char) (istream : List char) :
    Run (List char) := do
  let plaintext ← newChars fresh bufferSize
  let (_, ostream) ←
    pump bufferSize decodePiece (istream.length + 1) (initDecodestate, plaintext) istream []
  .ok ostream

/-! ## The text of a stream -/

/-- The number that three bytes make, the first one above. It has 24 bits. -/
def bytesWord (first second third : char) : Nat :=
  first.toNat * 65536 + second.toNat * 256 + third.toNat

/-- The four values of a number of three bytes. The highest six bits come first. -/
def wordValues (word : Nat) : List Nat :=
  [word / 262144, word / 4096 % 64, word / 64 % 64, word % 64]

/-- Base64: four symbols for each three bytes. One or two bytes at the end have as many symbols
as their bits need, and the group is filled up. -/
def base64 : List char → List char
  | [] => []
  | [first] => ((wordValues (bytesWord first 0 0)).take 2).map symbol ++ [equalSign, equalSign]
  | [first, second] => ((wordValues (bytesWord first second 0)).take 3).map symbol ++ [equalSign]
  | first :: second :: third :: rest =>
    (wordValues (bytesWord first second third)).map symbol ++ base64 rest

/-- Base64 in lines: each 57 bytes make a line, and what is left makes the last one. It is stated
without the encoder. -/
def linesText (content : List char) : List char :=
  if content.length < 57 then base64 content ++ [newline]
  else base64 (content.take 57) ++ [newline] ++ linesText (content.drop 57)
termination_by content.length
decreasing_by
  rw [List.length_drop]
  omega

/-- The number that four values make, the first one above. It has 24 bits if each of them is below
64. -/
def valuesWord (first second third fourth : Nat) : Nat :=
  first * 262144 + second * 4096 + third * 64 + fourth

/-- The three bytes of a number. The highest eight bits come first. -/
def wordBytes (word : Nat) : List char :=
  [UInt8.ofNat (word / 65536), UInt8.ofNat (word / 256 % 256), UInt8.ofNat (word % 256)]

/-- The bytes of values: three for each four, and at the end the whole bytes there are. Bits
behind the last whole byte are dropped. -/
def octets : List Nat → List char
  | [] => []
  | [_] => []
  | [first, second] => (wordBytes (valuesWord first second 0 0)).take 1
  | [first, second, third] => (wordBytes (valuesWord first second third 0)).take 2
  | first :: second :: third :: fourth :: rest =>
    wordBytes (valuesWord first second third fourth) ++ octets rest

/-! ## What the encoder gives out -/

/-- The values of three bytes, each from the bits of one byte or of two. The encoder computes them
one after the other. -/
theorem values_of_bytes (first second third : char) :
    wordValues (bytesWord first second third) =
      [first.toNat / 4, first.toNat % 4 * 16 + second.toNat / 16,
        second.toNat % 16 * 4 + third.toNat / 64, third.toNat % 64] := by
  have upper := first.toNat_lt
  have middle := second.toNat_lt
  have lower := third.toNat_lt
  have one : bytesWord first second third / 262144 = first.toNat / 4 := by
    rw [bytesWord]
    omega
  have two : bytesWord first second third / 4096 % 64 =
      first.toNat % 4 * 16 + second.toNat / 16 := by
    rw [bytesWord]
    omega
  have three : bytesWord first second third / 64 % 64 =
      second.toNat % 16 * 4 + third.toNat / 64 := by
    rw [bytesWord]
    omega
  have four : bytesWord first second third % 64 = third.toNat % 64 := by
    rw [bytesWord]
    omega
  rw [wordValues, one, two, three, four]

/-- Three bytes at the beginning of a group. Four symbols are given out, and a newline when the
line is full. -/
theorem group_encoded (result : char) (count : Nat) (first second third : char)
    (rest : List char) :
    ∃ left, drive encodeStep ⟨.stepA, result, count⟩ (first :: second :: third :: rest) =
      ((drive encodeStep ⟨.stepA, left, (count + 1) % 19⟩ rest).1,
        (wordValues (bytesWord first second third)).map symbol ++
          (if count + 1 = 19 then [newline] else []) ++
          (drive encodeStep ⟨.stepA, left, (count + 1) % 19⟩ rest).2) := by
  refine ⟨UInt8.ofNat (third.toNat % 64), ?_⟩
  have kept := number_kept (first.toNat % 4 * 16) (by omega)
  have other := number_kept (second.toNat % 16 * 4) (by omega)
  rw [values_of_bytes]
  simp only [drive, encodeStep, kept, other, List.map_cons, List.map_nil, List.cons_append,
    List.nil_append]

/-- One or two bytes at the end, or none. What is missing of a group counts as zero. -/
theorem end_encoded (result : char) (count : Nat) (content : List char)
    (short : content.length < 3) :
    (drive encodeStep ⟨.stepA, result, count⟩ content).2 ++
        endText (drive encodeStep ⟨.stepA, result, count⟩ content).1 =
      base64 content ++ [newline] := by
  match content, short with
  | [], _ => rfl
  | [first], _ =>
    have kept := number_kept (first.toNat % 4 * 16) (by omega)
    rw [base64, values_of_bytes]
    simp only [drive, encodeStep, endText, kept]
    rfl
  | [first, second], _ =>
    have kept := number_kept (first.toNat % 4 * 16) (by omega)
    have other := number_kept (second.toNat % 16 * 4) (by omega)
    rw [base64, values_of_bytes]
    simp only [drive, encodeStep, endText, kept, other]
    rfl

/-- A line that is not filled. Proof: by whole groups, and then by what is left. -/
theorem rest_encoded (result : char) (count : Nat) (content : List char)
    (short : 3 * count + content.length < 57) :
    (drive encodeStep ⟨.stepA, result, count⟩ content).2 ++
        endText (drive encodeStep ⟨.stepA, result, count⟩ content).1 =
      base64 content ++ [newline] := by
  induction content using base64.induct generalizing result count with
  | case1 => exact end_encoded result count _ (by simp)
  | case2 first => exact end_encoded result count _ (by simp)
  | case3 first second => exact end_encoded result count _ (by simp)
  | case4 first second third rest inductionHypothesis =>
    simp only [List.length_cons] at short
    obtain ⟨left, encoded⟩ := group_encoded result count first second third rest
    have next : (count + 1) % 19 = count + 1 := Nat.mod_eq_of_lt (by omega)
    have later := inductionHypothesis left (count + 1) (by omega)
    rw [next, if_neg (by omega), List.append_nil] at encoded
    rw [encoded, base64, List.append_assoc, List.append_assoc, later]

/-- A line that is filled. Behind it a group and a line begin. -/
theorem row_encoded (result : char) (count : Nat) (content : List char)
    (filled : 3 * count + content.length = 57) (few : count < 19) :
    ∃ left, drive encodeStep ⟨.stepA, result, count⟩ content =
      (⟨.stepA, left, 0⟩, base64 content ++ [newline]) := by
  induction content using base64.induct generalizing result count with
  | case1 =>
    simp only [List.length_nil] at filled
    omega
  | case2 first =>
    simp only [List.length_cons, List.length_nil] at filled
    omega
  | case3 first second =>
    simp only [List.length_cons, List.length_nil] at filled
    omega
  | case4 first second third rest inductionHypothesis =>
    simp only [List.length_cons] at filled
    obtain ⟨left, encoded⟩ := group_encoded result count first second third rest
    by_cases last : count + 1 = 19
    · have empty : rest = [] := List.length_eq_zero_iff.mp (by omega)
      rw [if_pos last, last, empty, drive_nil, List.append_nil] at encoded
      exact ⟨left, by rw [empty, encoded, base64, base64, List.append_nil]⟩
    · have next : (count + 1) % 19 = count + 1 := Nat.mod_eq_of_lt (by omega)
      obtain ⟨final, later⟩ := inductionHypothesis left (count + 1) (by omega) (by omega)
      rw [if_neg last, next, later, List.append_nil] at encoded
      exact ⟨final, by rw [encoded, base64, List.append_assoc]⟩

/-- From the beginning of a line on the encoder gives out the lines of the content. Proof: by the
recursion of `linesText`, one filled line at a time. -/
theorem lines_encoded (result : char) (content : List char) :
    (drive encodeStep ⟨.stepA, result, 0⟩ content).2 ++
        endText (drive encodeStep ⟨.stepA, result, 0⟩ content).1 = linesText content := by
  induction content using linesText.induct generalizing result with
  | case1 content short =>
    rw [linesText, if_pos short]
    exact rest_encoded result 0 content (by omega)
  | case2 content long inductionHypothesis =>
    have filled : (content.take 57).length = 57 := List.length_take_of_le (by omega)
    obtain ⟨left, row⟩ := row_encoded result 0 (content.take 57) (by omega) (by decide)
    have joined := drive_append encodeStep ⟨.stepA, result, 0⟩ (content.take 57) (content.drop 57)
    rw [List.take_append_drop, row] at joined
    rw [joined, linesText, if_neg long, List.append_assoc, inductionHypothesis left]

/-! ## What the decoder gives out -/

/-- A byte that begins with the bits of one number and ends with another one. The lower bits are
added to a byte that is reduced already. -/
theorem bytes_joined (upper lower : Nat) :
    UInt8.ofNat ((UInt8.ofNat upper).toNat + lower) = UInt8.ofNat (upper + lower) := by
  rw [UInt8.ofNat_add, UInt8.ofNat_toNat, ← UInt8.ofNat_add]

/-- The bytes of four values, each from the bits of two of them. The decoder computes them one
after the other. -/
theorem bytes_of_values (first second third fourth : Nat) (one : third < 64)
    (other : fourth < 64) :
    wordBytes (valuesWord first second third fourth) =
      [UInt8.ofNat (first * 4 + second / 16), UInt8.ofNat (second % 16 * 16 + third / 4),
        UInt8.ofNat (third % 4 * 64 + fourth)] := by
  have upper : valuesWord first second third fourth / 65536 = first * 4 + second / 16 := by
    rw [valuesWord]
    omega
  have middle : valuesWord first second third fourth / 256 % 256 =
      second % 16 * 16 + third / 4 := by
    rw [valuesWord]
    omega
  have lower : valuesWord first second third fourth % 256 = third % 4 * 64 + fourth := by
    rw [valuesWord]
    omega
  rw [wordBytes, upper, middle, lower]

/-- Values at the beginning of a group give out their bytes. Proof: four values at a time, with
the three short ends apart. -/
theorem octets_decoded (values : List Nat) (small : ∀ value ∈ values, value < 64) :
    (drive valueStep initDecodestate values).2 = octets values := by
  induction values using octets.induct with
  | case1 => rfl
  | case2 first => rfl
  | case3 first second =>
    rw [octets, bytes_of_values first second 0 0 (by decide) (by decide)]
    simp only [drive, valueStep, initDecodestate, bytes_joined]
    rfl
  | case4 first second third =>
    rw [octets, bytes_of_values first second third 0 (small third (by simp)) (by decide)]
    simp only [drive, valueStep, initDecodestate, bytes_joined]
    rfl
  | case5 first second third fourth rest inductionHypothesis =>
    have later := inductionHypothesis fun value member => small value (by simp [member])
    rw [octets, bytes_of_values first second third fourth (small third (by simp))
      (small fourth (by simp)), ← later]
    simp only [drive, valueStep, initDecodestate, bytes_joined, List.cons_append, List.nil_append]

/-- The value of a character is below 64. So its bits are those of six places. -/
theorem symbol_value_small (codechar : char) (value : Nat)
    (found : symbolValue codechar = some value) : value < 64 := by
  by_cases brace : codechar = openBrace
  · rw [brace, symbolValue, decode_value_open_brace] at found
    cases found
  · rcases decode_value_cases codechar brace with ⟨other, small, known⟩ | ⟨other, negative, known⟩
    · have positive : ¬ Int.ofNat other < 0 := not_lt.mpr (Int.natCast_nonneg other)
      rw [symbolValue, known] at found
      dsimp only at found
      rw [if_neg positive] at found
      cases found
      exact small
    · rw [symbolValue, known] at found
      dsimp only at found
      rw [if_pos negative] at found
      cases found

/-- A text is decoded to the bytes of its values. Characters without a value are skipped, wherever
they stand. -/
theorem text_decoded (text : List char) :
    (drive decodeStep initDecodestate text).2 = octets (text.filterMap symbolValue) := by
  rw [decodeStep, drive_skipping]
  apply octets_decoded
  intro value member
  obtain ⟨codechar, _, found⟩ := List.mem_filterMap.mp member
  exact symbol_value_small codechar value found

/-! ## Decoding what was encoded -/

/-- The bytes of a number are the three that made it. It is cut at every eighth bit. -/
theorem bytes_back (first second third : char) :
    wordBytes (bytesWord first second third) = [first, second, third] := by
  have upper := first.toNat_lt
  have middle := second.toNat_lt
  have lower := third.toNat_lt
  have one : bytesWord first second third / 65536 = first.toNat := by
    rw [bytesWord]
    omega
  have two : bytesWord first second third / 256 % 256 = second.toNat := by
    rw [bytesWord]
    omega
  have three : bytesWord first second third % 256 = third.toNat := by
    rw [bytesWord]
    omega
  rw [wordBytes, one, two, three, UInt8.ofNat_toNat, UInt8.ofNat_toNat, UInt8.ofNat_toNat]

/-- The number of three bytes has 24 bits. So it is cut into four values below 64. -/
theorem bytes_word_lt (first second third : char) : bytesWord first second third < 16777216 := by
  have upper := first.toNat_lt
  have middle := second.toNat_lt
  have lower := third.toNat_lt
  rw [bytesWord]
  omega

/-- Four values make the number again that they were taken from. The four are cut at every sixth
bit. -/
theorem values_word_word_values (word : Nat) :
    valuesWord (word / 262144) (word / 4096 % 64) (word / 64 % 64) (word % 64) = word := by
  rw [valuesWord]
  omega

/-- The symbols of values below 64 are read back. Proof: by induction on the values. -/
theorem symbols_back (values : List Nat) (small : ∀ value ∈ values, value < 64) :
    (values.map symbol).filterMap symbolValue = values := by
  induction values with
  | nil => rfl
  | cons value values inductionHypothesis =>
    rw [List.map_cons, List.filterMap_cons,
      (symbol_value_symbol value (small value List.mem_cons_self)).1]
    dsimp only
    rw [inductionHypothesis fun other member => small other (List.mem_cons_of_mem _ member)]

/-- The values of a number of 24 bits are below 64. So each of them has a symbol. -/
theorem word_values_small (word : Nat) (inside : word < 16777216) :
    ∀ value ∈ wordValues word, value < 64 := by
  intro value member
  simp only [wordValues, List.mem_cons, List.not_mem_nil, or_false] at member
  omega

/-- The symbols of some of the values of three bytes are read back. A short last group has two or
three of them. -/
theorem word_symbols_back (first second third : char) (count : Nat) :
    (((wordValues (bytesWord first second third)).take count).map symbol).filterMap symbolValue =
      (wordValues (bytesWord first second third)).take count :=
  symbols_back _ fun value member =>
    word_values_small _ (bytes_word_lt first second third) value (List.mem_of_mem_take member)

/-- The characters beside the symbols have no value and are not behind the table. So the decoder
passes over them. -/
theorem others_skipped : symbolValue equalSign = none ∧ symbolValue newline = none ∧
    equalSign ≠ openBrace ∧ newline ≠ openBrace := by
  decide +kernel

/-- Whole groups in front of other values are decoded to their bytes. They take no part of the
values behind them. -/
theorem groups_back (content : List char) (values : List Nat) (whole : 3 ∣ content.length) :
    octets ((base64 content).filterMap symbolValue ++ values) = content ++ octets values := by
  induction content using base64.induct with
  | case1 => rfl
  | case2 first => simp only [List.length_cons, List.length_nil] at whole; omega
  | case3 first second => simp only [List.length_cons, List.length_nil] at whole; omega
  | case4 first second third rest inductionHypothesis =>
    simp only [List.length_cons] at whole
    have later := inductionHypothesis (by omega)
    have read := word_symbols_back first second third 4
    rw [show (wordValues (bytesWord first second third)).take 4 =
      wordValues (bytesWord first second third) from rfl] at read
    rw [base64, List.filterMap_append, read, List.append_assoc, wordValues]
    simp only [List.cons_append, List.nil_append]
    rw [octets, values_word_word_values, bytes_back, later]
    rfl

/-- A text of base64 is decoded to its bytes. The signs that fill the last group have no value. -/
theorem base64_back (content : List char) :
    octets ((base64 content).filterMap symbolValue) = content := by
  have skipped := others_skipped.1
  induction content using base64.induct with
  | case1 => rfl
  | case2 first =>
    have read := word_symbols_back first 0 0 2
    have bound := first.toNat_lt
    have made : valuesWord (bytesWord first 0 0 / 262144) (bytesWord first 0 0 / 4096 % 64) 0 0 =
        bytesWord first 0 0 := by
      rw [valuesWord, bytesWord, UInt8.toNat_zero]
      omega
    rw [base64, List.filterMap_append, read, List.filterMap_cons, List.filterMap_cons, skipped]
    rw [show octets ((wordValues (bytesWord first 0 0)).take 2 ++ [].filterMap symbolValue) =
      (wordBytes (valuesWord (bytesWord first 0 0 / 262144)
        (bytesWord first 0 0 / 4096 % 64) 0 0)).take 1 from rfl, made, bytes_back]
    rfl
  | case3 first second =>
    have read := word_symbols_back first second 0 3
    have upper := first.toNat_lt
    have lower := second.toNat_lt
    have made : valuesWord (bytesWord first second 0 / 262144)
        (bytesWord first second 0 / 4096 % 64) (bytesWord first second 0 / 64 % 64) 0 =
        bytesWord first second 0 := by
      rw [valuesWord, bytesWord, UInt8.toNat_zero]
      omega
    rw [base64, List.filterMap_append, read, List.filterMap_cons, skipped]
    rw [show octets ((wordValues (bytesWord first second 0)).take 3 ++ [].filterMap symbolValue) =
      (wordBytes (valuesWord (bytesWord first second 0 / 262144)
        (bytesWord first second 0 / 4096 % 64) (bytesWord first second 0 / 64 % 64) 0)).take 2
      from rfl, made, bytes_back]
    rfl
  | case4 first second third rest inductionHypothesis =>
    have front := groups_back [first, second, third] ((base64 rest).filterMap symbolValue)
      (by simp)
    rw [inductionHypothesis] at front
    have split : base64 (first :: second :: third :: rest) =
        base64 [first, second, third] ++ base64 rest := rfl
    rw [split, List.filterMap_append, front]
    rfl

/-- The lines of a content are decoded to the content. A newline has no value, so it does not
matter where lines end. -/
theorem lines_back (content : List char) :
    octets ((linesText content).filterMap symbolValue) = content := by
  have skipped := others_skipped.2.1
  induction content using linesText.induct with
  | case1 content short =>
    rw [linesText, if_pos short, List.filterMap_append, List.filterMap_cons, skipped]
    dsimp only
    rw [List.filterMap_nil, List.append_nil, base64_back]
  | case2 content long inductionHypothesis =>
    have filled : (content.take 57).length = 57 := List.length_take_of_le (by omega)
    rw [linesText, if_neg long, List.filterMap_append, List.filterMap_append,
      List.filterMap_cons, skipped]
    dsimp only
    rw [List.filterMap_nil, List.append_nil, groups_back _ _ (by rw [filled]; decide),
      inductionHypothesis, List.take_append_drop]

/-- No line has the character behind the table. It is no character of the alphabet. -/
theorem base64_clean (content : List char) : ∀ ch ∈ base64 content, ch ≠ openBrace := by
  have symbols : ∀ (word count : Nat), word < 16777216 →
      ∀ ch ∈ ((wordValues word).take count).map symbol, ch ≠ openBrace := by
    intro word count small ch member
    obtain ⟨value, among, rfl⟩ := List.mem_map.mp member
    exact (symbol_value_symbol value
      (word_values_small word small value (List.mem_of_mem_take among))).2
  have filling := others_skipped.2.2.1
  induction content using base64.induct with
  | case1 => exact fun ch member => absurd member List.not_mem_nil
  | case2 first =>
    intro ch member
    rw [base64, List.mem_append] at member
    rcases member with member | member
    · exact symbols _ 2 (bytes_word_lt first 0 0) ch member
    · simp only [List.mem_cons, List.not_mem_nil, or_false, or_self] at member
      rw [member]
      exact filling
  | case3 first second =>
    intro ch member
    rw [base64, List.mem_append] at member
    rcases member with member | member
    · exact symbols _ 3 (bytes_word_lt first second 0) ch member
    · rw [List.mem_singleton.mp member]
      exact filling
  | case4 first second third rest inductionHypothesis =>
    intro ch member
    rw [base64, List.mem_append] at member
    rcases member with member | member
    · exact symbols _ 4 (bytes_word_lt first second third) ch member
    · exact inductionHypothesis ch member

/-- The text of a stream has no character behind the table either. A newline is another character
too. -/
theorem lines_clean (content : List char) : ∀ ch ∈ linesText content, ch ≠ openBrace := by
  have ending : ∀ ch ∈ [newline], ch ≠ openBrace := by
    intro ch member
    rw [List.mem_singleton.mp member]
    exact others_skipped.2.2.2
  induction content using linesText.induct with
  | case1 content short =>
    intro ch member
    rw [linesText, if_pos short, List.mem_append] at member
    exact member.elim (base64_clean content ch) (ending ch)
  | case2 content long inductionHypothesis =>
    intro ch member
    rw [linesText, if_neg long, List.mem_append, List.mem_append] at member
    rcases member with (member | member) | member
    · exact base64_clean _ ch member
    · exact ending ch member
    · exact inductionHypothesis ch member

/-! ## Pieces -/

/-- The encoder and its buffer stand for a state of the transducer. The buffer is twice as long as
a piece. -/
def Encodes (bufferSize : Nat) (state : EncodeState × List char) (abstract : EncodeState) :
    Prop :=
  state.1 = abstract ∧ abstract.Ready ∧ state.2.length = 2 * bufferSize

/-- The decoder and its buffer carry a state of the transducer. The buffer is as long as a
piece. -/
def Decodes (bufferSize : Nat) (state : DecodeState × List char) (abstract : DecodeState) :
    Prop :=
  Stands state.1 abstract ∧ state.2.length = bufferSize

variable (bufferSize : Nat)

/-- The loop body of the encoder carries the transducer over each piece. -/
theorem encode_piece_carries (large : 2 ≤ bufferSize) :
    Carries encodePiece encodeStep (Encodes bufferSize) (fun _ => True) bufferSize := by
  rintro ⟨state, code⟩ abstract piece ⟨same, ready, size⟩ short _
  dsimp only at same size
  subst same
  obtain ⟨after, done, length, front⟩ := encode_block_drives piece code state ready
    (by rw [size]; exact block_fits piece state ready bufferSize short large)
  refine ⟨((drive encodeStep state piece).1, after), ?_, rfl, block_ready state piece ready, ?_⟩
  · rw [encodePiece, done, ok_bind]
    dsimp only
    rw [front]
  · rw [length, size]

/-- The loop body of the decoder carries the transducer over each piece without the character
behind the table. -/
theorem decode_piece_carries (large : 4 ≤ bufferSize) :
    Carries decodePiece decodeStep (Decodes bufferSize) (· ≠ openBrace) bufferSize := by
  rintro ⟨state, plaintext⟩ abstract piece ⟨stands, size⟩ short inside
  dsimp only at stands size
  have fits := plaintext_fits piece abstract bufferSize short large
  obtain ⟨buffer, after, done, length, front, final⟩ := decode_block_drives piece plaintext state
    abstract inside stands (size ▸ fits)
  refine ⟨(after, buffer), ?_, final, ?_⟩
  · rw [decodePiece, done, ok_bind]
    dsimp only
    rw [front]
  · rw [length, size]

/-- The decoder stops at each piece with the character behind the table. The rest of the stream is
not read then. -/
theorem decode_piece_stops (large : 4 ≤ bufferSize) (state : DecodeState × List char)
    (abstract : DecodeState) (piece : List char) (tracked : Decodes bufferSize state abstract)
    (short : piece.length ≤ bufferSize) (outside : ¬ ∀ ch ∈ piece, ch ≠ openBrace) :
    decodePiece state piece = .error .outOfBounds := by
  obtain ⟨state, plaintext⟩ := state
  obtain ⟨stands, size⟩ := tracked
  dsimp only at stands size
  have room := plaintext_fits piece abstract bufferSize short large
  cases plaintext with
  | nil =>
    rw [List.length_nil] at size
    omega
  | cons old rest =>
    rw [List.length_cons] at size
    have begun : store (old :: rest) 0 state.plainchar = .ok (state.plainchar :: rest) :=
      store_next [] rest old state.plainchar 0 rfl
    have stopped := decode_loop_stops piece [] rest state abstract stands (by omega) outside
    rw [List.nil_append, List.length_nil] at stopped
    rw [decodePiece, decodeBlock]
    dsimp only
    rw [begun, ok_bind, stopped]
    rfl

/-- A stream is encoded to its lines, and no character is written outside the buffer. Proof: a
piece makes no more characters than the buffer has, so the loop carries the transducer. -/
theorem encode_stream_lines (fresh : Nat → char) (content : List char) (large : 2 ≤ bufferSize)
    (fits : 2 * bufferSize < 2 ^ 31) :
    encodeStream bufferSize fresh content = .ok (linesText content) := by
  have allocated : newChars fresh (2 * bufferSize) =
      .ok ((List.range (2 * bufferSize)).map fresh) := if_pos fits
  obtain ⟨⟨state, code⟩, ran, same, ready, size⟩ := pump_drives encodePiece encodeStep
    (Encodes bufferSize) (fun _ => True) (encode_piece_carries bufferSize large) (by omega)
    (content.length + 1) (initEncodestate, (List.range (2 * bufferSize)).map fresh)
    initEncodestate content [] ⟨rfl, init_ready, by simp⟩ (fun _ _ => trivial) (Nat.lt_succ_self _)
  dsimp only at same size
  obtain ⟨after, ended, front⟩ := encode_blockend_ends code
    (drive encodeStep initEncodestate content).1 ready (by omega)
  rw [encodeStream, allocated, ok_bind, ran, ok_bind]
  dsimp only
  rw [same, ended, ok_bind]
  dsimp only
  rw [front, List.nil_append]
  exact congrArg Except.ok (lines_encoded 0 content)

/-- A text without the character behind the table is decoded to the bytes of its values. -/
theorem decode_stream_octets (fresh : Nat → char) (text : List char) (large : 4 ≤ bufferSize)
    (fits : bufferSize < 2 ^ 31) (inside : ∀ ch ∈ text, ch ≠ openBrace) :
    decodeStream bufferSize fresh text = .ok (octets (text.filterMap symbolValue)) := by
  have allocated : newChars fresh bufferSize = .ok ((List.range bufferSize).map fresh) :=
    if_pos fits
  obtain ⟨⟨state, plaintext⟩, ran, _⟩ := pump_drives decodePiece decodeStep (Decodes bufferSize)
    (· ≠ openBrace) (decode_piece_carries bufferSize large) (by omega) (text.length + 1)
    (initDecodestate, (List.range bufferSize).map fresh) initDecodestate text []
    ⟨⟨rfl, fun _ => rfl, fun started => absurd rfl started⟩, by simp⟩ inside (Nat.lt_succ_self _)
  rw [decodeStream, allocated, ok_bind, ran, ok_bind, text_decoded, List.nil_append]

/-- A text with that character leaves the table. -/
theorem decode_stream_stops (fresh : Nat → char) (text : List char) (large : 4 ≤ bufferSize)
    (fits : bufferSize < 2 ^ 31) (outside : ¬ ∀ ch ∈ text, ch ≠ openBrace) :
    decodeStream bufferSize fresh text = .error .outOfBounds := by
  have allocated : newChars fresh bufferSize = .ok ((List.range bufferSize).map fresh) :=
    if_pos fits
  have stopped := pump_stops decodePiece decodeStep (Decodes bufferSize) (· ≠ openBrace)
    (decode_piece_carries bufferSize large) (by omega) .outOfBounds
    (decode_piece_stops bufferSize large) (text.length + 1)
    (initDecodestate, (List.range bufferSize).map fresh) initDecodestate text []
    ⟨⟨rfl, fun _ => rfl, fun started => absurd rfl started⟩, by simp⟩ outside (Nat.lt_succ_self _)
  rw [decodeStream, allocated, ok_bind, stopped, error_bind]

/-- The text of a stream is base64 in lines of 57 bytes, and it is decoded to the stream again,
whatever the buffers of the encoder and the decoder hold and however large they are, from two and
four characters on. Proof: the loops carry two transducers, of which one gives out the lines of
the stream and the other the bytes of the lines. -/
theorem streams_through_base64 (content : List char) (other : Nat) (fresh stale : Nat → char)
    (large : 2 ≤ bufferSize) (fits : 2 * bufferSize < 2 ^ 31) (roomy : 4 ≤ other)
    (holds : other < 2 ^ 31) :
    encodeStream bufferSize fresh content = .ok (linesText content) ∧
      decodeStream other stale (linesText content) = .ok content := by
  refine ⟨encode_stream_lines bufferSize fresh content large fits, ?_⟩
  rw [decode_stream_octets other stale _ roomy holds (lines_clean content), lines_back]

/-- Three bytes come back through buffers of two and of five characters. The first buffer cuts
their group. -/
theorem three_bytes_through_base64 :
    encodeStream 2 (fun _ => 0) [1, 2, 255] = .ok (linesText [1, 2, 255]) ∧
      decodeStream 5 (fun _ => 7) (linesText [1, 2, 255]) = .ok [1, 2, 255] :=
  streams_through_base64 2 [1, 2, 255] 5 (fun _ => 0) (fun _ => 7) (by decide) (by decide)
    (by decide) (by decide)

/-- The decoder takes exactly the texts without the character behind its table, and reads outside
the table on that character. It skips everything that has no value, and what it gives out depends
on the values alone, not on where the text is cut into pieces. Proof: up to an opening brace the
loop carries the decoder, and there the table is read outside. -/
theorem any_text_decoded (text : List char) (fresh : Nat → char) (large : 4 ≤ bufferSize)
    (fits : bufferSize < 2 ^ 31) :
    decodeStream bufferSize fresh text =
      if openBrace ∈ text then .error .outOfBounds
      else .ok (octets (text.filterMap symbolValue)) := by
  by_cases present : openBrace ∈ text
  · have outside : ¬ ∀ ch ∈ text, ch ≠ openBrace := fun clean => clean openBrace present rfl
    rw [if_pos present]
    exact decode_stream_stops bufferSize fresh text large fits outside
  · have inside : ∀ ch ∈ text, ch ≠ openBrace := fun ch member same => present (same ▸ member)
    rw [if_neg present]
    exact decode_stream_octets bufferSize fresh text large fits inside

/-- A blank and a newline in a text are skipped, an opening brace behind them is not. -/
theorem spaced_text_decoded :
    decodeStream 4 (fun _ => 0) [65, 32, 81, 10, 73, 68] = .ok [1, 2, 3] ∧
      decodeStream 4 (fun _ => 0) [65, 32, 81, 10, 123, 68] = .error .outOfBounds :=
  ⟨(any_text_decoded 4 [65, 32, 81, 10, 73, 68] (fun _ => 0) (by decide) (by decide)).trans
      (by decide +kernel),
    (any_text_decoded 4 [65, 32, 81, 10, 123, 68] (fun _ => 0) (by decide) (by decide)).trans
      (by decide +kernel)⟩

end EffiLib.Base64
