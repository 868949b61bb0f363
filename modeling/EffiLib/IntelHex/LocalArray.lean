import EffiLib.IntelHex.RecordEffects

/-!
# The initial content of the local array

The decoder passes over characters that are no digits, but returns a length that counts
them. Where there are such characters, the checks and the record read bytes that were
never written. Some content of the array always fails the checksum then, so a line is
independent of the array only if its outcome is that of a failed check in any case: the
count is wrong, or the record would be refused as well.
-/

namespace EffiLib.IntelHex

open Buffers LinkedHeap Segments

/-- The result and the structure: the return value, the blocks in memory and the fields. What
may still be granted is left out. -/
def observed (result : Bool × Heap Block × IntelHexFormat) :
    Bool × List (Option (Node Block)) × IntelHexFormat :=
  (result.1, result.2.1.cells, result.2.2)

/-- What a line comes to with a given content of the array. Nodes that were released count, the
answers to later requests do not. -/
def lineOutcome (heap : Heap Block) (hexFile : IntelHexFormat) (line : List u8)
    (data : LocalBuffer) : Run (Bool × List (Option (Node Block)) × IntelHexFormat) :=
  (parseOneLine heap hexFile line data).map observed

/-- Two runs with different contents of the array come to the same. It is asked for one line in
one state. -/
def ArrayIndependent (heap : Heap Block) (hexFile : IntelHexFormat) (line : List u8) : Prop :=
  ∀ first second, lineOutcome heap hexFile line first = lineOutcome heap hexFile line second

/-- `AddBlock` would return `FALSE`: the overlap test refuses, or the second of its two
requests for memory is denied. -/
def AddRefused (heap : Heap Block) (hexFile : IntelHexFormat) (address dataLen : u32) : Prop :=
  Refuses heap hexFile address dataLen ∨
    (AllocationFails heap hexFile address dataLen ∧ heap.grants 0 = true)

/-- The range that a data record adds first: of one across 2^32 the part behind it. The other part
is stored only if this one was. -/
def firstRange (hexFile : IntelHexFormat) (field : u16) (count : Nat) : u32 × Nat :=
  let first := hexFile.addressBase.toNat + field.toNat
  if first < 2 ^ 32 ∧ 2 ^ 32 < first + count then (0, count - (2 ^ 32 - first))
  else (dataAddress hexFile field, count)

/-- The first range of a record without data is empty. It lies at the address of the record. -/
theorem first_range_nothing (hexFile : IntelHexFormat) (field : u16) :
    firstRange hexFile field 0 = (dataAddress hexFile field, 0) := by
  rw [firstRange, if_neg (by omega)]

/-- The first four bytes alone have the record refused: the count or the address of a control
record is wrong, or `AddBlock` refuses the first range. -/
def RefusedAnyway (heap : Heap Block) (hexFile : IntelHexFormat) (front : List u8) : Prop :=
  ¬ ControlFields front ∨
    (front.getD 3 0 = 0 ∧ hexFile.fileMode = .linear ∧
      let range := firstRange hexFile (addressField front) (front.getD 0 0).toNat
      AddRefused heap hexFile range.1 (UInt32.ofNat range.2))

/-- The line is no record, it is too long for the array, its digits fill every byte that is
read, or they have it refused whatever the other bytes are. -/
def Settled (heap : Heap Block) (hexFile : IntelHexFormat) (line : List u8) : Prop :=
  let text := recordText line
  let spelled := pack (digits text)
  ¬ IsRecord line ∨ 512 < text.length ∨ spelled.length = (text.length + 1) / 2 ∨
    (spelled ≠ [] ∧ (spelled.getD 0 0).toNat + 5 ≠ (text.length + 1) / 2) ∨
    (4 ≤ spelled.length ∧ RefusedAnyway heap hexFile spelled)

/-! ## When a record is refused -/

section Refusals

variable (heap : Heap Block) (hexFile : IntelHexFormat) (nodes : List BlockNode)

/-- The outcome of a refusal. The cells are those in front of the call. -/
def unchanged : Run (Bool × List (Option (Node Block)) × IntelHexFormat) :=
  .ok (false, heap.cells, hexFile)

/-- To leave things unchanged is to return `FALSE` with the nodes and the fields as they were. It
does not ask whether memory was requested. -/
theorem unchanged_iff (result : Run (Bool × Heap Block × IntelHexFormat)) :
    result.map observed = unchanged heap hexFile ↔
      ∃ changed, result = .ok (false, changed, hexFile) ∧ changed.cells = heap.cells := by
  cases result with
  | error fault => simp [Except.map, unchanged]
  | ok outcome =>
    obtain ⟨accepted, changed, relinked⟩ := outcome
    constructor
    · intro same
      obtain ⟨rfl, cells, rfl⟩ : accepted = false ∧ changed.cells = heap.cells ∧
          relinked = hexFile := by
        simpa [Except.map, unchanged, observed] using same
      exact ⟨changed, rfl, cells⟩
    · rintro ⟨others, same, cells⟩
      obtain ⟨rfl, rfl, rfl⟩ : accepted = false ∧ changed = others ∧ relinked = hexFile := by
        simpa using same
      exact congrArg (fun cells => Except.ok (false, cells, relinked)) cells

/-- Adding a range is refused exactly if `AddBlock` would return `FALSE`. A first request that is
denied faults instead. -/
theorem store_refused (address : u32) (bytes : List u8) (owns : Owns heap hexFile nodes)
    (size : bytes.length < 2 ^ 32) :
    (storeBytes heap hexFile address bytes).map observed = unchanged heap hexFile ↔
      AddRefused heap hexFile address (UInt32.ofNat bytes.length) := by
  have word : (UInt32.ofNat bytes.length).toNat = bytes.length := UInt32.toNat_ofNat_of_lt' size
  have outcome := add_block_outcomes heap hexFile nodes address bytes (UInt32.ofNat bytes.length)
    owns (by rw [word])
  rw [storeBytes]
  generalize addBlock heap hexFile address bytes (UInt32.ofNat bytes.length) = result at outcome ⊢
  cases outcome with
  | refused refuses => exact iff_of_true rfl (Or.inl refuses)
  | unallocated clear denied =>
    refine iff_of_false (by simp [Except.map, unchanged]) ?_
    rintro (refuses | ⟨_, granted⟩)
    · exact clear refuses
    · simp [denied] at granted
  | released failing granted => exact iff_of_true rfl (Or.inr ⟨failing, granted⟩)
  | overflow clear granted served =>
    refine iff_of_false (by simp [Except.map, unchanged]) ?_
    rintro (refuses | ⟨failing, _⟩)
    · exact clear refuses
    · exact served failing
  | stored clear granted served =>
    refine iff_of_false (by simp [Except.map, unchanged, credited, observed]) ?_
    rintro (refuses | ⟨failing, _⟩)
    · exact clear refuses
    · exact served failing

/-- Bytes that were counted have changed the total. So a call that has stored bytes is seen in the
header. -/
theorem counted_differs (hexFile relinked : IntelHexFormat) (count : Nat) (positive : 0 < count)
    (small : count < 2 ^ 32) (counted : Counted hexFile relinked count) : relinked ≠ hexFile := by
  rintro rfl
  have total : relinked.totalLength = relinked.totalLength + UInt32.ofNat count := by
    have totals := congrArg IntelHexFormat.totalLength counted
    exact totals
  have zero : UInt32.ofNat count = 0 := by simpa using total
  have counts := congrArg UInt32.toNat zero
  rw [UInt32.toNat_ofNat_of_lt' small] at counts
  exact absurd counts (Nat.ne_of_gt positive)

/-- A record in ranges is refused without a trace exactly if its first range is. Behind a first
range that was stored the outcome differs by that range. -/
theorem pieces_refused (field : u16) (payload : List u8) (owns : Owns heap hexFile nodes)
    (short : payload.length ≤ 251) :
    (storeAll heap hexFile (pieces hexFile field payload)).map observed = unchanged heap hexFile ↔
      AddRefused heap hexFile (firstRange hexFile field payload.length).1
        (UInt32.ofNat (firstRange hexFile field payload.length).2) := by
  by_cases crossing : hexFile.addressBase.toNat + field.toNat < 2 ^ 32 ∧
      2 ^ 32 < hexFile.addressBase.toNat + field.toNat + payload.length
  · rw [pieces, firstRange, if_pos crossing, if_pos crossing]
    generalize distance : 2 ^ 32 - (hexFile.addressBase.toNat + field.toNat) = split
    have size : (payload.drop split).length = payload.length - split := List.length_drop
    have small : (payload.drop split).length < 2 ^ 32 := by omega
    have refusal := store_refused heap hexFile nodes 0 (payload.drop split) owns small
    rw [size] at refusal
    rw [← refusal]
    rcases store_outcome heap hexFile nodes 0 (payload.drop split) owns small with
      ⟨fault, result⟩ | ⟨changed, result, cells⟩ | ⟨changed, relinked, after, result, stored⟩
    · rw [storeAll, result, error_bind]
    · rw [storeAll, result]
      rfl
    · -- The first range is stored, so the total has grown whatever becomes of the second.
      have grown := counted_differs hexFile relinked _ (by omega) small stored.counted
      rw [storeAll, result]
      simp only [ok_bind, if_true, store_all_single]
      refine iff_of_false ?_ (by simp [Except.map, unchanged, observed])
      rcases store_outcome changed relinked after (dataAddress hexFile field)
          (payload.take split) stored.owns (by rw [List.length_take]; omega) with
        ⟨fault, second⟩ | ⟨others, second, _⟩ | ⟨others, following, later, second, _⟩
      · simp [second, Except.map, unchanged]
      · simp [second, Except.map, unchanged, observed, grown]
      · simp [second, Except.map, unchanged, observed]
  · rw [pieces, firstRange, if_neg crossing, if_neg crossing, store_all_single,
      store_refused heap hexFile nodes _ payload owns (by omega)]

/-- A control record is refused exactly if one of its fields is wrong. The check looks at the
count and at the address field. -/
theorem update_refused (record : CheckedRecord) (rest : List u8)
    (short : record.payload.length ≤ 251) :
    record.update hexFile = none ↔ ¬ ControlFields (record.bytes ++ rest) := by
  have kind : (record.bytes ++ rest).getD 3 0 = record.kind :=
    record_kind record.kind record.field record.payload rest
  have field : addressField (record.bytes ++ rest) = record.field :=
    record_field record.kind record.field record.payload rest
  have plain : ∀ required : u8, (record.bytes ++ rest).getD 0 0 = required ↔
      record.payload.length = required.toNat := by
    intro required
    rw [CheckedRecord.bytes, record_count, ← UInt8.toNat_inj, UInt8.toNat_ofNat',
      Nat.mod_eq_of_lt (by omega)]
  have guarded : ∀ required update, record.guarded required update = none ↔
      ¬ (record.payload.length = required ∧ record.field = 0) := by
    intro required update
    rw [CheckedRecord.guarded]
    split_ifs with holds <;> simp [holds]
  have zero := plain 0
  have two := plain 2
  have four := plain 4
  simp only [ControlFields, kind, field, zero, two, four]
  unfold CheckedRecord.update
  split_ifs with eof segment start linear entry
  · simp [guarded, eof]
  · simp [guarded, segment]
  · simp [guarded, start]
  · simp [guarded, linear]
  · simp [guarded, entry]
  · simp [eof, segment, start, linear, entry]

/-- Behind the checks on the text a record is refused without a trace exactly if its front
has it refused. -/
theorem process_refused (record : CheckedRecord) (rest : List u8)
    (owns : Owns heap hexFile nodes) (short : record.payload.length ≤ 251) :
    (record.process heap hexFile).map observed = unchanged heap hexFile ↔
      RefusedAnyway heap hexFile (record.bytes ++ rest) := by
  have kind : (record.bytes ++ rest).getD 3 0 = record.kind :=
    record_kind record.kind record.field record.payload rest
  have field : addressField (record.bytes ++ rest) = record.field :=
    record_field record.kind record.field record.payload rest
  have count : ((record.bytes ++ rest).getD 0 0).toNat = record.payload.length := by
    rw [CheckedRecord.bytes, record_count, UInt8.toNat_ofNat', Nat.mod_eq_of_lt (by omega)]
  rw [CheckedRecord.process, RefusedAnyway, kind, field, count]
  by_cases dataKind : record.kind = 0
  · have fields : ControlFields (record.bytes ++ rest) := by
      simp only [ControlFields, kind, dataKind]
      simp
    rw [if_pos dataKind]
    by_cases mode : hexFile.fileMode = .linear
    · rw [if_pos mode, pieces_refused heap hexFile nodes record.field record.payload owns short]
      simp [fields, dataKind, mode]
    · rw [if_neg mode]
      exact iff_of_false (by simp [Except.map, unchanged, observed]) (by simp [fields, mode])
  · rw [if_neg dataKind, ← update_refused hexFile record rest short]
    simp only [dataKind, false_and, or_false]
    cases record.update hexFile with
    | none => exact iff_of_true rfl rfl
    | some update =>
      exact iff_of_false (by simp [Except.map, unchanged, observed]) (by simp)

end Refusals

/-! ## Contents of the array -/

/-- Any bytes that begin with the spelled ones can be what the decoder leaves. The array may have
held any bytes behind those that are spelled. -/
theorem array_with (text bytes rest : List u8) (begins : bytes = pack (digits text) ++ rest)
    (fits : bytes.length ≤ 256) : ∃ data after, decoded data text = bytes ++ after := by
  let filler := List.replicate (256 - bytes.length) (0 : u8)
  let data : LocalBuffer := ⟨bytes ++ filler, by simp [filler]; omega⟩
  exact ⟨data, filler, decoded_same data text (rest ++ filler) (by simp [data, begins])⟩

/-- With a byte missing some content of the array fails the checksum. The byte can be chosen, and
all but one choice spoil the sum. -/
theorem failing_array (text : List u8) (short : text.length ≤ 512)
    (missing : (pack (digits text)).length < (text.length + 1) / 2) :
    ∃ data, ¬ TextChecks data text := by
  let gap := (text.length + 1) / 2 - 1 - (pack (digits text)).length
  let front := pack (digits text) ++ List.replicate gap 0
  have size : (front ++ [1 - checksum front]).length = (text.length + 1) / 2 := by
    simp [front, gap]
    omega
  obtain ⟨data, after, whole⟩ := array_with text (front ++ [1 - checksum front])
    (List.replicate gap 0 ++ [1 - checksum front]) (by simp [front]) (by omega)
  refine ⟨data, fun checks => ?_⟩
  obtain ⟨_, _, sum⟩ := checks
  rw [whole, ← size, List.take_left' rfl, checksum_append, checksum_single] at sum
  have one : checksum front + (1 - checksum front) = 1 := by grind
  rw [one] at sum
  exact absurd sum (by decide)

/-- Where the digits fill every byte that is read, the checks and the record do not depend on
the array. -/
theorem full_independent (text : List u8) (first second : LocalBuffer) (long : 9 ≤ text.length)
    (full : (pack (digits text)).length = (text.length + 1) / 2) :
    (TextChecks first text ↔ TextChecks second text) ∧
      (TextChecks first text →
        recordOf (decoded first text) = recordOf (decoded second text)) := by
  have front : ∀ data, (decoded data text).take ((text.length + 1) / 2) = pack (digits text) := by
    intro data
    rw [decoded, ← full, List.take_left' rfl]
  have same : ∀ data, ∀ index < 5,
      (decoded data text).getD index 0 = (pack (digits text)).getD index 0 :=
    fun data index small => List.getD_append _ _ _ _ (by omega)
  have checks : ∀ data, TextChecks data text ↔ text.length ≤ 512 ∧
      ((pack (digits text)).getD 0 0).toNat + 5 = (text.length + 1) / 2 ∧
      checksum (pack (digits text)) = 0 := by
    intro data
    rw [TextChecks, front, same data 0 (by omega)]
  refine ⟨(checks first).trans (checks second).symm, fun passed => ?_⟩
  obtain ⟨_, count, _⟩ := (checks first).mp passed
  have payload : ∀ data, payloadOf (decoded data text) =
      ((pack (digits text)).drop 4).take ((pack (digits text)).getD 0 0).toNat := by
    intro data
    rw [payloadOf, same data 0 (by omega), decoded, List.drop_append_of_le_length (by omega),
      List.take_append_of_le_length (by rw [List.length_drop]; omega)]
  have field : ∀ data, addressField (decoded data text) = addressField (pack (digits text)) := by
    intro data
    simp only [addressField, same data 1 (by omega), same data 2 (by omega)]
  rw [recordOf, recordOf, payload, payload, field, field, same first 3 (by omega),
    same second 3 (by omega)]

/-- The first four bytes decide `RefusedAnyway`. They are the count, the address and the type. -/
theorem refused_front (heap : Heap Block) (hexFile : IntelHexFormat) (front rest : List u8)
    (enough : 4 ≤ front.length) :
    RefusedAnyway heap hexFile (front ++ rest) ↔ RefusedAnyway heap hexFile front := by
  have same : ∀ index < 4, (front ++ rest).getD index 0 = front.getD index 0 :=
    fun index small => List.getD_append _ _ _ _ (by omega)
  have field : addressField (front ++ rest) = addressField front := by
    simp only [addressField, same 1 (by omega), same 2 (by omega)]
  rw [RefusedAnyway, RefusedAnyway, control_fields_front front rest enough, same 3 (by omega),
    same 0 (by omega), field]

/-! ## Lines -/

section Lines

variable (heap : Heap Block) (hexFile : IntelHexFormat) (nodes : List BlockNode) (line : List u8)

/-- What a record line comes to. The checks come before the record is looked at. -/
theorem record_outcome (data : LocalBuffer) (record : IsRecord line) :
    lineOutcome heap hexFile line data =
      if TextChecks data (recordText line) then
        ((recordOf (recordArray line data)).process heap hexFile).map observed
      else unchanged heap hexFile := by
  rw [lineOutcome, parse_record, if_pos record]
  by_cases checks : TextChecks data (recordText line)
  · rw [if_pos checks, if_pos checks]
  · rw [if_neg checks, if_neg checks]
    rfl

/-- A line that passes the checks comes to a refusal exactly if its record is refused anyway. An
accepted record changes the header or the list. -/
theorem checked_outcome (data : LocalBuffer) (owns : Owns heap hexFile nodes)
    (record : IsRecord line) (checks : TextChecks data (recordText line)) :
    lineOutcome heap hexFile line data = unchanged heap hexFile ↔
      RefusedAnyway heap hexFile (recordArray line data) := by
  obtain ⟨short, rest, whole⟩ := checked_record (recordText line) data checks
  have array : (recordOf (recordArray line data)).bytes ++ rest = recordArray line data :=
    whole.symm
  have refused := process_refused heap hexFile nodes (recordOf (recordArray line data)) rest owns
    short
  rw [array] at refused
  rw [record_outcome heap hexFile line data record, if_pos checks, refused]

/-- A settled line comes to the same with every content of the array. Proof: either the text
decides every byte that is looked at, or no content of the array gets the line accepted. -/
theorem settled_independent (owns : Owns heap hexFile nodes) (settled : Settled heap hexFile line) :
    ArrayIndependent heap hexFile line := by
  intro first second
  by_cases record : IsRecord line
  · obtain ⟨_, _, long⟩ := line_parts (cString line) record.1 record.2
    rcases settled with other | tooLong | full | ⟨spelled, wrong⟩ | ⟨enough, refused⟩
    · exact absurd record other
    · have fails : ∀ data, ¬ TextChecks data (recordText line) :=
        fun data checks => absurd checks.1 (Nat.not_le.mpr tooLong)
      rw [record_outcome heap hexFile line first record, if_neg (fails first),
        record_outcome heap hexFile line second record, if_neg (fails second)]
    · obtain ⟨checks, same⟩ := full_independent (recordText line) first second long full
      rw [record_outcome heap hexFile line first record,
        record_outcome heap hexFile line second record]
      by_cases passed : TextChecks first (recordText line)
      · rw [if_pos passed, if_pos (checks.mp passed), recordArray, same passed, recordArray]
      · rw [if_neg passed, if_neg (fun other => passed (checks.mpr other))]
    · have fails : ∀ data, ¬ TextChecks data (recordText line) := by
        rintro data ⟨_, count, _⟩
        rw [decoded, List.getD_append _ _ _ _ (List.length_pos_iff.mpr spelled)] at count
        exact wrong count
      rw [record_outcome heap hexFile line first record, if_neg (fails first),
        record_outcome heap hexFile line second record, if_neg (fails second)]
    · have refusal : ∀ data, lineOutcome heap hexFile line data = unchanged heap hexFile := by
        intro data
        by_cases checks : TextChecks data (recordText line)
        · exact (checked_outcome heap hexFile nodes line data owns record checks).mpr
            ((refused_front heap hexFile _ _ enough).mpr refused)
        · rw [record_outcome heap hexFile line data record, if_neg checks]
      rw [refusal first, refusal second]
  · rw [lineOutcome, lineOutcome, parse_record, parse_record, if_neg record, if_neg record]

/-- The result and the structure do not depend on the initial content of the array exactly if the
line is settled. Proof: where a byte of the array is looked at some content fails the checksum, so
the outcome can only be that of a refusal. -/
theorem array_independent_exactly (owns : Owns heap hexFile nodes) :
    ArrayIndependent heap hexFile line ↔ Settled heap hexFile line := by
  refine ⟨fun independent => ?_, settled_independent heap hexFile nodes line owns⟩
  by_contra unsettled
  simp only [Settled, not_or, not_not, not_lt, not_and] at unsettled
  obtain ⟨record, short, unfilled, count, clear⟩ := unsettled
  obtain ⟨_, _, long⟩ := line_parts (cString line) record.1 record.2
  have missing : (pack (digits (recordText line))).length < ((recordText line).length + 1) / 2 := by
    have counted := digits_length (recordText line)
    rw [pack_length] at unfilled ⊢
    omega
  -- One content fails the checksum, so every other one must come to a refusal.
  obtain ⟨failing, fails⟩ := failing_array (recordText line) short missing
  have refusal : ∀ data, lineOutcome heap hexFile line data = unchanged heap hexFile := by
    intro data
    rw [independent data failing, record_outcome heap hexFile line failing record, if_neg fails]
  by_cases enough : 4 ≤ (pack (digits (recordText line))).length
  · have spelled : pack (digits (recordText line)) ≠ [] := List.length_pos_iff.mp (by omega)
    obtain ⟨passing, checks, after, whole⟩ := completed_checks (recordText line)
      (pack (digits (recordText line))) [] short (List.append_nil _).symm (by omega)
      (count spelled) missing
    have refused := (checked_outcome heap hexFile nodes line passing owns record checks).mp
      (refusal passing)
    rw [recordArray, whole, refused_front heap hexFile _ after enough] at refused
    exact clear enough refused
  · obtain ⟨passing, checks, kind⟩ := typed_checks (recordText line) 6 long short
      (Nat.lt_of_not_le enough) count
    rcases (checked_outcome heap hexFile nodes line passing owns record checks).mp
      (refusal passing) with malformed | ⟨dataKind, _⟩
    · refine malformed ?_
      simp only [ControlFields, recordArray, kind]
      simp
    · rw [recordArray, kind] at dataKind
      exact absurd dataKind (by decide)

end Lines

/-- The line of an end-of-file record with its digits complete is independent. Every byte that is
looked at is one it spells. -/
theorem eof_line_independent :
    ArrayIndependent ⟨[], fun _ => true⟩ .fresh (":00000001FF\n".toList.map code) :=
  (array_independent_exactly ⟨[], fun _ => true⟩ .fresh [] (":00000001FF\n".toList.map code)
    (owns_nothing _ _ rfl rfl)).mpr (Or.inr (Or.inr (Or.inl (by decide +kernel))))

/-- An array of one byte throughout. Two such arrays show that a line depends on what the stack
held. -/
def LocalBuffer.filled (byte : u8) : LocalBuffer := ⟨List.replicate 256 byte, List.length_replicate⟩

set_option maxRecDepth 8000 in
/-- With two characters in place of the checksum digits the last byte of the record is what
the array held: a zero is refused and `0xFF` accepted. -/
theorem missing_checksum_dependent :
    Owns ⟨[], fun _ => true⟩ .fresh [] ∧
    ¬ ArrayIndependent ⟨[], fun _ => true⟩ .fresh (":00000001XX\n".toList.map code) := by
  refine ⟨owns_nothing _ _ rfl rfl, fun independent => ?_⟩
  have refused : lineOutcome ⟨[], fun _ => true⟩ .fresh (":00000001XX\n".toList.map code)
      (.filled 0) = .ok (false, [], .fresh) := rfl
  have accepted : lineOutcome ⟨[], fun _ => true⟩ .fresh (":00000001XX\n".toList.map code)
      (.filled 0xFF) = .ok (true, [], { IntelHexFormat.fresh with endOfFile := true }) := rfl
  have same := independent (.filled 0) (.filled 0xFF)
  rw [refused, accepted] at same
  simp at same

end EffiLib.IntelHex
