import EffiLib.IntelHex.ParseOneLine

/-!
# Which colon lines are accepted

A well-formed line spells a count, that many bytes and four more of overhead, in
digits only, with a zero checksum. The decoder passes over other characters and
fills a half byte with zero, and the length it reports is that of the text, so the
later checks do not see what was passed over.

A clean line has nothing to pass over. Any other line is accepted in some state
with some content of the local array, unless what its digits spell already fails a
check; `RuledOut` lists these checks.
-/

namespace EffiLib.IntelHex

open Buffers LinkedHeap

/-- Without its newline, the line is a colon and the digits of `n + 5` bytes, the
first of which is `n`, and the bytes sum to zero modulo 256. -/
def WellFormed (line : List u8) : Prop :=
  ∃ text bytes, (line = code ':' :: (text ++ [code '\n']) ∨ line = code ':' :: text) ∧
    Encodes text bytes ∧ bytes.length = (bytes.getD 0 0).toNat + 5 ∧
    (bytes.map UInt8.toNat).sum % 256 = 0

/-- Only digits follow the colon, in even number, up to a newline; a line without
newline, whose last character goes unread, has a zero there. -/
def Clean (line : List u8) : Prop :=
  ∃ text, (∀ ch ∈ text, (hexDigit ch).isSome) ∧ text.length % 2 = 0 ∧
    (line = code ':' :: (text ++ [code '\n']) ∨
      (line = code ':' :: text ∧ text.getLast?.bind hexDigit = some 0))

/-- The characters between the colon and the last character of the line. The last character is cut
off whatever it is. -/
def middle (line : List u8) : List u8 := (line.drop 1).dropLast

/-- A control record has the count of its type and a zero address field. Data records have neither
of these checks. -/
def ControlFields (data : List u8) : Prop :=
  let kind := data.getD 3 0
  let plain (required : u8) : Prop := data.getD 0 0 = required ∧ addressField data = 0
  (kind = 1 ∨ kind = 2 → plain 0) ∧ (kind = 4 → plain 2) ∧ (kind = 3 ∨ kind = 5 → plain 4)

/-- The bytes the digits of a text spell, and nothing else, decide that the text is
turned down: it is too long for the array, its first byte is not the count, the
bytes are all there and their sum is not zero, or a control record is malformed. -/
def RuledOut (text : List u8) : Prop :=
  let spelled := pack (digits text)
  512 < text.length ∨ (spelled ≠ [] ∧ (spelled.getD 0 0).toNat + 5 ≠ (text.length + 1) / 2) ∨
    (spelled.length = (text.length + 1) / 2 ∧ checksum spelled ≠ 0) ∨
    (4 ≤ spelled.length ∧ ¬ ControlFields spelled)

/-- The states that lines lead to, whatever the local array held. Refused lines count as well,
since the caller sees the state behind them. -/
inductive Reachable : Heap Block → IntelHexFormat → Prop where
  | fresh (grants : Nat → Bool) : Reachable ⟨[], grants⟩ .fresh
  | line (heap changed : Heap Block) (hexFile relinked : IntelHexFormat) (str : List u8)
      (data : LocalBuffer) (accepted : Bool) (before : Reachable heap hexFile)
      (parsed : parseOneLine heap hexFile str data = .ok (accepted, changed, relinked)) :
      Reachable changed relinked

/-- The checksum is the sum of the bytes modulo 256. Proof: by induction on the bytes. -/
theorem checksum_sum (bytes : List u8) :
    (checksum bytes).toNat = (bytes.map UInt8.toNat).sum % 256 := by
  have folded : ∀ start : u8, (bytes.foldl (· + ·) start).toNat =
      (start.toNat + (bytes.map UInt8.toNat).sum) % 256 := by
    induction bytes with
    | nil =>
      intro start
      have bound := start.toNat_lt
      simp only [List.foldl_nil, List.map_nil, List.sum_nil]
      omega
    | cons byte rest inductionHypothesis =>
      intro start
      rw [List.foldl_cons, inductionHypothesis, UInt8.toNat_add, List.map_cons, List.sum_cons]
      omega
  simpa [checksum] using folded 0

/-- The byte-wide sum is zero exactly when the sum of the values is a multiple of 256. The byte
drops the carries, and the sum of values does not. -/
theorem checksum_zero_iff (bytes : List u8) :
    checksum bytes = 0 ↔ (bytes.map UInt8.toNat).sum % 256 = 0 := by
  rw [← UInt8.toNat_inj, checksum_sum]
  rfl

/-- A control record returns `TRUE` exactly with its count and a zero address. Its other bytes are
not checked. -/
theorem control_taken (heap : Heap Block) (hexFile update : IntelHexFormat) (data : List u8)
    (required : u8) :
    (∃ changed relinked, controlRecord heap hexFile data required update =
      .ok (true, changed, relinked)) ↔
      data.getD 0 0 = required ∧ addressField data = 0 := by
  simp only [controlRecord]
  generalize data.getD 0 0 = count
  by_cases same : count = required <;> by_cases address : addressField data = 0 <;>
    simp [same, address]

/-- Only control records with the right fields get through the switch. The checks are made for
each type in its own branch of the switch. -/
theorem process_control (heap changed : Heap Block) (hexFile relinked : IntelHexFormat)
    (data : List u8) (returned : processRecord heap hexFile data = .ok (true, changed, relinked)) :
    ControlFields data := by
  have found : ∃ changed relinked, processRecord heap hexFile data =
    .ok (true, changed, relinked) :=
    ⟨changed, relinked, returned⟩
  simp only [processRecord] at found
  simp only [ControlFields]
  generalize data.getD 3 0 = kind at found ⊢
  by_cases dataKind : kind = 0
  · simp [dataKind]
  · by_cases eof : kind = 1
    · simpa [eof, control_taken] using found
    · by_cases segment : kind = 2
      · simpa [segment, control_taken] using found
      · by_cases startSegment : kind = 3
        · simpa [startSegment, control_taken] using found
        · by_cases linear : kind = 4
          · simpa [linear, control_taken] using found
          · by_cases startLinear : kind = 5
            · simpa [startLinear, control_taken] using found
            · simp [eof, segment, startSegment, linear, startLinear]

/-- Outside linear mode nothing but the fields of control records is looked at. Data records are
passed over there, so no list of blocks can refuse a line. -/
theorem process_segmented (heap : Heap Block) (hexFile : IntelHexFormat) (data : List u8)
    (mode : hexFile.fileMode = .segmented) (fields : ControlFields data) :
    ∃ changed relinked, processRecord heap hexFile data = .ok (true, changed, relinked) := by
  simp only [ControlFields] at fields
  simp only [processRecord, mode]
  generalize data.getD 3 0 = kind at fields ⊢
  by_cases dataKind : kind = 0
  · simp [dataKind]
  · by_cases eof : kind = 1
    · simpa [eof, control_taken] using fields
    · by_cases segment : kind = 2
      · simpa [segment, control_taken] using fields
      · by_cases startSegment : kind = 3
        · simpa [startSegment, control_taken] using fields
        · by_cases linear : kind = 4
          · simpa [linear, control_taken] using fields
          · by_cases startLinear : kind = 5
            · simpa [startLinear, control_taken] using fields
            · simp [dataKind, eof, segment, startSegment, linear, startLinear]

/-- A line is its colon, the characters in the middle and its last character. The last one is not
looked at. -/
theorem line_parts (line : List u8) (colon : line.head? = some (code ':'))
    (long : 11 ≤ line.length) :
    ∃ last, line = code ':' :: (middle line ++ [last]) ∧ 9 ≤ (middle line).length := by
  cases line with
  | nil => simp at long
  | cons first rest =>
    obtain rfl : first = code ':' := by simpa using colon
    rcases List.eq_nil_or_concat' rest with rfl | ⟨front, last, rfl⟩
    · simp at long
    · refine ⟨last, by simp [middle], ?_⟩
      simp only [List.length_cons, List.length_append, List.length_nil] at long
      simp only [middle, List.drop_succ_cons, List.drop_zero, List.dropLast_concat]
      omega

/-- A zero appended to an odd number of digits fills the half byte already there. So a line with
such a digit missing has the same bytes. Proof: by the recursion of `pack`. -/
theorem pack_zero (values : List u8) (odd : values.length % 2 = 1) :
    pack (values ++ [0]) = pack values := by
  induction values using pack.induct with
  | case1 => simp at odd
  | case2 high => simp [pack]
  | case3 high low rest inductionHypothesis =>
    have restOdd : rest.length % 2 = 1 := by
      simp only [List.length_cons] at odd
      omega
    simpa [pack] using inductionHypothesis restOdd

/-- The text checks look at the packed digits when nothing was passed over. On such a line the
checks do not depend on the array. -/
theorem text_checks_packed (data : LocalBuffer) (text : List u8)
    (valid : ∀ ch ∈ text, (hexDigit ch).isSome) (checks : TextChecks data text) :
    (pack (digits text)).length = ((pack (digits text)).getD 0 0).toNat + 5 ∧
      checksum (pack (digits text)) = 0 := by
  obtain ⟨_, count, sum⟩ := checks
  have all : (digits text).length = text.length := by
    rw [digits, List.length_filterMap_eq_countP, List.countP_eq_length]
    exact valid
  have size : (pack (digits text)).length = (text.length + 1) / 2 := by rw [pack_length, all]
  have front : (decoded data text).take ((text.length + 1) / 2) = pack (digits text) := by
    rw [decoded, ← size, List.take_left']
    rfl
  have first : (decoded data text).getD 0 0 = (pack (digits text)).getD 0 0 := by
    rw [decoded, List.getD_append _ _ _ _ (by omega)]
  rw [front] at sum
  rw [first] at count
  exact ⟨by omega, sum⟩

/-- A clean line that passes the text checks is well formed. The reported length is the number of
bytes then, so the checks mean what they say. -/
theorem clean_well_formed (line : List u8) (data : LocalBuffer) (clean : Clean line)
    (colon : line.head? = some (code ':')) (long : 11 ≤ line.length)
    (checks : TextChecks data (middle line)) : WellFormed line := by
  obtain ⟨last, parts, _⟩ := line_parts line colon long
  obtain ⟨text, valid, even, rfl | ⟨rfl, lastZero⟩⟩ := clean
  · have whole : middle (code ':' :: (text ++ [code '\n'])) = text := by simp [middle]
    rw [whole] at checks
    obtain ⟨count, sum⟩ := text_checks_packed data text valid checks
    exact ⟨text, pack (digits text), Or.inl rfl, digits_encode text valid even, count,
      (checksum_zero_iff _).mp sum⟩
  · have split : text = middle (code ':' :: text) ++ [last] := by simpa using parts
    generalize middle (code ':' :: text) = front at split checks
    subst split
    have zero : hexDigit last = some 0 := by simpa using lastZero
    have frontValid : ∀ ch ∈ front, (hexDigit ch).isSome :=
      fun ch member => valid ch (by simp [member])
    obtain ⟨count, sum⟩ := text_checks_packed data front frontValid checks
    have all : (digits front).length = front.length := by
      rw [digits, List.length_filterMap_eq_countP, List.countP_eq_length]
      exact frontValid
    have same : pack (digits (front ++ [last])) = pack (digits front) := by
      have appended : digits (front ++ [last]) = digits front ++ [0] := by simp [digits, zero]
      rw [appended, pack_zero]
      rw [all]
      simp only [List.length_append, List.length_singleton] at even
      omega
    refine ⟨front ++ [last], pack (digits (front ++ [last])), Or.inr rfl,
      digits_encode _ valid even, ?_, ?_⟩
    · rw [same]
      exact count
    · rw [same]
      exact (checksum_zero_iff _).mp sum

/-- The halves of bytes with the first half of one more pack to the bytes and that
half shifted up. -/
theorem pack_half (bytes : List u8) (high : u8) :
    pack (bytes.flatMap nibbles ++ [high]) = bytes ++ [high <<< 4] := by
  induction bytes with
  | nil => rfl
  | cons byte rest inductionHypothesis =>
    simp only [List.flatMap_cons, nibbles, List.cons_append, List.nil_append, pack, pack_halves]
    exact congrArg (byte :: ·) inductionHypothesis

/-- A byte equal to its own first half shifted up ends in a zero half. The shift has moved a zero
into it. -/
theorem low_half_zero (byte : u8) (same : byte = (byte / 16) <<< 4) : byte % 16 = 0 := by
  have checked : ∀ index : Fin 256, UInt8.ofNat index = (UInt8.ofNat index / 16) <<< 4 →
      UInt8.ofNat index % 16 = 0 := by
    decide +kernel
  simpa using checked ⟨byte.toNat, byte.toNat_lt⟩ (by simpa using same)

/-- The sum over a concatenation is the sum of the two sums. Both are taken modulo 256. -/
theorem checksum_append (front back : List u8) :
    checksum (front ++ back) = checksum front + checksum back := by
  rw [← UInt8.toNat_inj, UInt8.toNat_add, checksum_sum, checksum_sum, checksum_sum, List.map_append,
    List.sum_append]
  omega

/-- The sum of one byte is the byte. It is added to zero. -/
@[simp] theorem checksum_single (byte : u8) : checksum [byte] = byte := UInt8.zero_add byte

/-- A well-formed line that passes the text checks is clean. Without a newline the
checks see the last digit as a zero, and the sum only fits if it is one. -/
theorem well_formed_clean (line : List u8) (data : LocalBuffer) (formed : WellFormed line)
    (checks : TextChecks data (middle line)) : Clean line := by
  obtain ⟨text, bytes, ending, encodes, count, sum⟩ := formed
  have valid := encodes_valid text bytes encodes
  have size := encodes_length text bytes encodes
  refine ⟨text, valid, by omega, ?_⟩
  rcases ending with newline | bare
  · exact Or.inl newline
  · refine Or.inr ⟨bare, ?_⟩
    obtain ⟨front, final, rfl⟩ : ∃ front final, bytes = front ++ [final] := by
      rcases List.eq_nil_or_concat' bytes with rfl | split
      · simp at count
      · exact split
    obtain ⟨early, high, low, rfl⟩ : ∃ early high low, text = early ++ [high, low] := by
      rcases List.eq_nil_or_concat' text with rfl | ⟨shorter, low, rfl⟩
      · simp at size
      · rcases List.eq_nil_or_concat' shorter with rfl | ⟨early, high, rfl⟩
        · simp only [List.nil_append, List.length_append, List.length_singleton] at size
          omega
        · exact ⟨early, high, low, by simp⟩
    have halves : early.map hexDigit = (front.flatMap nibbles).map some ∧
        [hexDigit high, hexDigit low] = [some (final / 16), some (final % 16)] := by
      have both : early.map hexDigit ++ [hexDigit high, hexDigit low] =
          (front.flatMap nibbles).map some ++ [some (final / 16), some (final % 16)] := by
        simpa [Encodes, nibbles] using encodes
      apply List.append_inj both
      simp only [List.length_map, nibbles_length]
      simp only [List.length_append, List.length_cons, List.length_nil] at size
      omega
    obtain ⟨frontSame, lastSame⟩ := halves
    obtain ⟨highSame, lowSame⟩ :
        hexDigit high = some (final / 16) ∧ hexDigit low = some (final % 16) := by
      simpa using lastSame
    have seen : middle line = early ++ [high] := by
      rw [bare]
      simp [middle, List.dropLast_append_of_ne_nil]
    have spelled : pack (digits (middle line)) = front ++ [(final / 16) <<< 4] := by
      rw [seen, digits, List.filterMap_append,
        show early.filterMap hexDigit = front.flatMap nibbles from
          encodes_digits early front frontSame]
      simp [highSame, pack_half]
    have seenValid : ∀ ch ∈ middle line, (hexDigit ch).isSome := by
      intro ch member
      rw [seen] at member
      exact valid ch (by
        simp only [List.mem_append, List.mem_cons, List.not_mem_nil, or_false] at member ⊢
        tauto)
    obtain ⟨_, zero⟩ := text_checks_packed data (middle line) seenValid checks
    have wholeZero := (checksum_zero_iff _).mpr sum
    rw [spelled, checksum_append, checksum_single] at zero
    rw [checksum_append, checksum_single, ← zero] at wholeZero
    have lowZero := low_half_zero final ((UInt8.add_right_inj _).mp wholeZero)
    simp [lowSame, lowZero]

/-- A control record is judged by its first four bytes. The payload of such a record is not looked
at. -/
theorem control_fields_front (front rest : List u8) (enough : 4 ≤ front.length) :
    ControlFields (front ++ rest) ↔ ControlFields front := by
  have same : ∀ index < 4, (front ++ rest).getD index 0 = front.getD index 0 :=
    fun index small => List.getD_append _ _ _ _ (by omega)
  simp only [ControlFields, addressField, same 0 (by omega), same 1 (by omega), same 2 (by omega),
    same 3 (by omega)]

/-- What rules a text out fails one of the checks, whatever the array held. Each of the conditions
looks at bytes that the text spells. -/
theorem ruled_out_refused (heap changed : Heap Block) (hexFile relinked : IntelHexFormat)
    (text : List u8) (data : LocalBuffer) (ruled : RuledOut text) (checks : TextChecks data text)
    (returned : processRecord heap hexFile (decoded data text) = .ok (true, changed, relinked)) :
    False := by
  obtain ⟨short, count, sum⟩ := checks
  rcases ruled with long | ⟨spelled, mismatch⟩ | ⟨full, nonzero⟩ | ⟨enough, malformed⟩
  · omega
  · have positive : 0 < (pack (digits text)).length := List.length_pos_iff.mpr spelled
    rw [decoded, List.getD_append _ _ _ _ positive] at count
    exact mismatch count
  · rw [decoded, ← full, List.take_left' rfl] at sum
    exact nonzero sum
  · exact malformed ((control_fields_front _ _ enough).mp
      (process_control heap changed hexFile relinked _ returned))

/-- An array that begins with the spelled bytes is not changed by decoding. So decoding the same
text again leaves the array. -/
theorem decoded_same (data : LocalBuffer) (text rest : List u8)
    (same : data.bytes = pack (digits text) ++ rest) : decoded data text = data.bytes := by
  rw [decoded, same, List.drop_left' rfl]

/-- Bytes that agree with what is spelled and pass the checks fill an array with
which the text passes them. -/
theorem filled_checks (text bytes rest : List u8) (short : text.length ≤ 512)
    (begins : bytes = pack (digits text) ++ rest) (size : bytes.length = (text.length + 1) / 2)
    (count : (bytes.getD 0 0).toNat + 5 = (text.length + 1) / 2) (sum : checksum bytes = 0) :
    ∃ data, TextChecks data text ∧ ∃ after, decoded data text = bytes ++ after := by
  let filler := List.replicate (256 - bytes.length) (0 : u8)
  let data : LocalBuffer := ⟨bytes ++ filler, by simp [filler]; omega⟩
  have whole : decoded data text = bytes ++ filler :=
    decoded_same data text (rest ++ filler) (by simp [data, begins])
  refine ⟨data, ⟨short, ?_, ?_⟩, filler, whole⟩
  · have positive : 0 < bytes.length := by omega
    rw [whole, List.getD_append _ _ _ _ positive]
    exact count
  · rw [whole, ← size, List.take_left' rfl]
    exact sum

/-- Replacing the last of several missing bytes by what the sum lacks. The zeros in front of it
add nothing. -/
theorem checksum_completed (front : List u8) (gap : Nat) :
    checksum (front ++ List.replicate gap 0 ++ [0 - checksum front]) = 0 := by
  have zeros : checksum (List.replicate gap 0) = 0 := by
    rw [checksum_zero_iff]
    simp
  rw [checksum_append, checksum_append, zeros, checksum_single, UInt8.add_zero]
  grind

/-- Bytes with the right count can be completed so that the checks are passed: the missing
ones are zero but for the last, which completes the sum. -/
theorem completed_checks (text front rest : List u8) (short : text.length ≤ 512)
    (begins : front = pack (digits text) ++ rest) (positive : 0 < front.length)
    (count : (front.getD 0 0).toNat + 5 = (text.length + 1) / 2)
    (room : front.length < (text.length + 1) / 2) :
    ∃ data, TextChecks data text ∧ ∃ after, decoded data text = front ++ after := by
  let gap := (text.length + 1) / 2 - 1 - front.length
  let bytes := front ++ List.replicate gap 0 ++ [0 - checksum front]
  have bytesCount : (bytes.getD 0 0).toNat + 5 = (text.length + 1) / 2 := by
    simp only [bytes, List.append_assoc]
    rw [List.getD_append _ _ _ _ positive]
    exact count
  obtain ⟨data, checks, after, whole⟩ := filled_checks text bytes
    (rest ++ List.replicate gap 0 ++ [0 - checksum front]) short (by simp [bytes, begins])
    (by simp [bytes, gap]; omega) bytesCount (checksum_completed front gap)
  refine ⟨data, checks, List.replicate gap 0 ++ ([0 - checksum front] ++ after), ?_⟩
  rw [whole]
  simp only [bytes, List.append_assoc]

/-- With the type missing as well some content passes the checks as a record of any type. The
checksum comes from the array too then. -/
theorem typed_checks (text : List u8) (kind : u8) (long : 9 ≤ text.length)
    (short : text.length ≤ 512) (few : (pack (digits text)).length < 4)
    (count : pack (digits text) ≠ [] →
      ((pack (digits text)).getD 0 0).toNat + 5 = (text.length + 1) / 2) :
    ∃ data, TextChecks data text ∧ (decoded data text).getD 3 0 = kind := by
  -- Without any digit the count is free as well.
  obtain ⟨front, ⟨rest, begins⟩, positive, frontCount, frontFew⟩ :
      ∃ front : List u8, (∃ rest, front = pack (digits text) ++ rest) ∧ 0 < front.length ∧
        (front.getD 0 0).toNat + 5 = (text.length + 1) / 2 ∧ front.length < 4 := by
    by_cases spelled : pack (digits text) = []
    · refine ⟨[UInt8.ofNat ((text.length + 1) / 2 - 5)], ⟨_, by rw [spelled]; rfl⟩, by simp, ?_,
        by simp⟩
      simp only [List.getD_cons_zero, UInt8.toNat_ofNat']
      omega
    · exact ⟨pack (digits text), ⟨[], by simp⟩, List.length_pos_iff.mpr spelled, count spelled, few⟩
  let typed := front ++ (List.replicate (3 - front.length) 0 ++ [kind])
  have size : typed.length = 4 := by
    simp [typed]
    omega
  have typedCount : (typed.getD 0 0).toNat + 5 = (text.length + 1) / 2 := by
    simp only [typed]
    rw [List.getD_append _ _ _ _ positive]
    exact frontCount
  obtain ⟨data, checks, after, whole⟩ := completed_checks text typed
    (rest ++ (List.replicate (3 - front.length) 0 ++ [kind])) short (by simp [typed, begins])
    (by omega) typedCount (by omega)
  have last : typed.getD 3 0 = kind := by
    simp only [typed]
    rw [List.getD_append_right _ _ _ _ (by omega), List.getD_append_right _ _ _ _ (by simp)]
    simp
  refine ⟨data, checks, ?_⟩
  rw [whole, List.getD_append _ _ _ _ (by omega), last]

/-- A text that is not ruled out passes every check with some content of the array,
and describes no malformed control record then. -/
theorem not_ruled_out_checks (text : List u8) (long : 9 ≤ text.length) (unruled : ¬ RuledOut text) :
    ∃ data, TextChecks data text ∧ ControlFields (decoded data text) := by
  simp only [RuledOut, not_or, not_and, not_lt, not_not] at unruled
  obtain ⟨short, count, sum, fields⟩ := unruled
  have spelledSize : (pack (digits text)).length ≤ (text.length + 1) / 2 := by
    have counted := digits_length text
    rw [pack_length]
    omega
  rcases Nat.lt_or_ge (pack (digits text)).length ((text.length + 1) / 2) with missing | full
  · by_cases enough : 4 ≤ (pack (digits text)).length
    · have spelled : pack (digits text) ≠ [] := List.length_pos_iff.mp (by omega)
      obtain ⟨data, checks, _⟩ := completed_checks text (pack (digits text)) [] short
        (List.append_nil _).symm (by omega) (count spelled) missing
      refine ⟨data, checks, ?_⟩
      rw [decoded, control_fields_front _ _ enough]
      exact fields enough
    · obtain ⟨data, checks, kind⟩ := typed_checks text 0 long short (Nat.lt_of_not_le enough) count
      refine ⟨data, checks, ?_⟩
      simp only [ControlFields, kind]
      simp
  · have size : (pack (digits text)).length = (text.length + 1) / 2 :=
      Nat.le_antisymm spelledSize full
    have spelled : pack (digits text) ≠ [] := by
      rintro nothing
      rw [nothing, List.length_nil] at size
      omega
    obtain ⟨data, checks, after, whole⟩ :=
      filled_checks text (pack (digits text)) [] short (by simp)
      size (count spelled) (sum size)
    refine ⟨data, checks, ?_⟩
    rw [whole, control_fields_front _ _ (by omega)]
    exact fields (by omega)

/-- A segmented state is reachable: the type-02 record is accepted with count 0. One line in front
of all others is enough. -/
theorem segmented_reachable :
    ∃ heap hexFile, Reachable heap hexFile ∧ hexFile.fileMode = .segmented := by
  exact ⟨_, _,
    .line _ _ _ _ (":00000002FE\n".toList.map code) .zero true (.fresh fun _ => true) rfl, rfl⟩

/-- The accepted lines are well formed, in every reachable state and for every content of the
local array, exactly for the lines that are clean or ruled out. Proof: on a clean line the checks
see what it spells; any other passes them in segmented mode with some content of the array, unless
it is ruled out. -/
theorem accepted_well_formed (line : List u8) (colon : line.head? = some (code ':'))
    (long : 11 ≤ line.length) (plain : ∀ ch ∈ line, ch ≠ 0) :
    (∀ heap hexFile, Reachable heap hexFile → ∀ data changed relinked,
      parseOneLine heap hexFile line data = .ok (true, changed, relinked) → WellFormed line) ↔
      Clean line ∨ RuledOut (middle line) := by
  obtain ⟨last, parts, middleLong⟩ := line_parts line colon long
  have middlePlain : ∀ ch ∈ middle line, ch ≠ 0 := by
    intro ch member
    apply plain ch
    rw [parts]
    simp [member]
  have lastPlain : last ≠ 0 := by
    apply plain last
    rw [parts]
    simp
  have parsed : ∀ heap hexFile data, parseOneLine heap hexFile line data =
      if TextChecks data (middle line) then processRecord heap hexFile (decoded data (middle line))
      else .ok (false, heap, hexFile) := by
    intro heap hexFile data
    have result := parse_colon_line heap hexFile (middle line) last data middleLong middlePlain
      lastPlain
    rwa [← parts] at result
  constructor
  · intro sound
    by_contra neither
    obtain ⟨unclean, unruled⟩ := not_or.mp neither
    obtain ⟨data, checks, fields⟩ := not_ruled_out_checks (middle line) middleLong unruled
    obtain ⟨heap, hexFile, reachable, mode⟩ := segmented_reachable
    obtain ⟨changed, relinked, taken⟩ :=
      process_segmented heap hexFile (decoded data (middle line)) mode fields
    have returned := parsed heap hexFile data
    rw [if_pos checks, taken] at returned
    exact unclean (well_formed_clean line data
      (sound heap hexFile reachable data changed relinked returned) checks)
  · intro condition heap hexFile _ data changed relinked returned
    rw [parsed] at returned
    by_cases checks : TextChecks data (middle line)
    · rw [if_pos checks] at returned
      rcases condition with clean | ruled
      · exact clean_well_formed line data clean colon long checks
      · exact (ruled_out_refused heap changed hexFile relinked _ data ruled checks returned).elim
    · rw [if_neg checks] at returned
      simp at returned

/-- The condition holds of the end-of-file line. It is clean. -/
theorem eof_line_well_formed :
    let line := ":00000001FF\n".toList.map code
    ∀ heap hexFile, Reachable heap hexFile → ∀ data changed relinked,
      parseOneLine heap hexFile line data = .ok (true, changed, relinked) → WellFormed line :=
  (accepted_well_formed _ rfl (by decide +kernel) (by decide +kernel)).mpr
    (Or.inl ⟨"00000001FF".toList.map code, by decide +kernel, rfl, Or.inl rfl⟩)

/-- Eleven digits after the colon. The last digit fills half a byte. -/
def oddText : List u8 := "010000000FF".toList.map code

set_option maxRecDepth 4000 in
/-- The line with eleven digits is accepted from the fresh state, whatever the local
array held: the missing half byte is filled with zero and the sum still fits. -/
theorem odd_line_accepted :
    let line := code ':' :: (oddText ++ [code '\n'])
    Reachable ⟨[], fun _ => true⟩ .fresh ∧ line.head? = some (code ':') ∧ 11 ≤ line.length ∧
      ¬ WellFormed line ∧ ∀ data, ∃ changed relinked,
        parseOneLine ⟨[], fun _ => true⟩ .fresh line data = .ok (true, changed, relinked) := by
  have spelled : pack (digits oddText) = [1, 0, 0, 0, 0x0F, 0xF0] := by decide +kernel
  have size : (oddText.length + 1) / 2 = 6 := by decide +kernel
  refine ⟨.fresh fun _ => true, rfl, by decide +kernel, ?_, ?_⟩
  · rintro ⟨text, bytes, newline | bare, encodes, _⟩
    · have same : oddText = text := List.append_cancel_right (List.tail_eq_of_cons_eq newline)
      have even := encodes_length text bytes encodes
      have odd : text.length = 11 := same ▸ rfl
      omega
    · have valid := encodes_valid text bytes encodes (code '\n') (by
        rw [← List.tail_eq_of_cons_eq bare]
        simp)
      exact absurd valid (by decide)
  · intro data
    have parsed := parse_colon_line ⟨[], fun _ => true⟩ .fresh oddText (code '\n') data
      (by decide +kernel) (by decide +kernel) (by decide)
    have checks : TextChecks data oddText := by
      refine ⟨by decide +kernel, ?_, ?_⟩
      · rw [decoded, spelled, size]
        rfl
      · rw [decoded, spelled, size]
        rfl
    rw [if_pos checks, decoded, spelled] at parsed
    generalize data.bytes.drop _ = rest at parsed
    exact ⟨_, _, parsed.trans rfl⟩

end EffiLib.IntelHex
