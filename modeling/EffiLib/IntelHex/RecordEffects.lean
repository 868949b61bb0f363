import EffiLib.IntelHex.AddressSpace
import EffiLib.IntelHex.Allocation
import EffiLib.IntelHex.FileInput

/-!
# What one record does

Behind the checks on its text a line counts with its type, its address field and its
payload only; what else the array holds makes no difference. A control record updates
fields of the structure or is refused. A data record in linear mode is one range of
bytes to add, or two if it runs across 2^32. Each range is added by one call of
`AddBlock`, and `TotalLength` grows by its size when the call returns `TRUE`.
-/

namespace EffiLib.IntelHex

open Buffers LinkedHeap Segments

/-- A record without its checksum. The count is the length of the payload. -/
structure CheckedRecord where
  kind : u8
  field : u16
  payload : List u8
deriving DecidableEq, Repr

/-- All bytes of a record. The checksum follows from the others. -/
def CheckedRecord.bytes (record : CheckedRecord) : List u8 :=
  recordBytes record.kind record.field record.payload

/-- The record at the front of an array. It is read whether or not a line spelled it. -/
def recordOf (array : List u8) : CheckedRecord :=
  ⟨array.getD 3 0, addressField array, payloadOf array⟩

/-- An accepted call counts its bytes. The total wraps as the source's does. -/
def credited (count : Nat) (result : Bool × Heap Block × IntelHexFormat) :
    Bool × Heap Block × IntelHexFormat :=
  (result.1, result.2.1,
    if result.1 then
      { result.2.2 with totalLength := result.2.2.totalLength + UInt32.ofNat count }
    else result.2.2)

/-- Add a range of bytes and count them. The length passed is that of the bytes. -/
def storeBytes (heap : Heap Block) (hexFile : IntelHexFormat) (address : u32) (bytes : List u8) :
    Run (Bool × Heap Block × IntelHexFormat) :=
  (addBlock heap hexFile address bytes (UInt32.ofNat bytes.length)).map (credited bytes.length)

/-- Add ranges in a row, up to and including the first that is refused. A data record is one or
two of them. -/
def storeAll (heap : Heap Block) (hexFile : IntelHexFormat) :
    List (u32 × List u8) → Run (Bool × Heap Block × IntelHexFormat)
  | [] => .ok (true, heap, hexFile)
  | (address, bytes) :: rest => do
    let (accepted, heap, hexFile) ← storeBytes heap hexFile address bytes
    if accepted then storeAll heap hexFile rest else .ok (false, heap, hexFile)

/-- The ranges that a data record is added in: of a record across 2^32 the part behind it
comes first, at address 0. -/
def pieces (hexFile : IntelHexFormat) (field : u16) (payload : List u8) :
    List (u32 × List u8) :=
  let first := hexFile.addressBase.toNat + field.toNat
  if first < 2 ^ 32 ∧ 2 ^ 32 < first + payload.length then
    [(0, payload.drop (2 ^ 32 - first)),
      (dataAddress hexFile field, payload.take (2 ^ 32 - first))]
  else [(dataAddress hexFile field, payload)]

/-- A record without data is one range without bytes. -/
theorem pieces_nothing (hexFile : IntelHexFormat) (field : u16) :
    pieces hexFile field [] = [(dataAddress hexFile field, [])] := by
  rw [pieces, List.length_nil, if_neg (by omega)]

/-- An update that asks for a count and a zero address field. Both fields are fixed for each type
of control record. -/
def CheckedRecord.guarded (record : CheckedRecord) (required : Nat) (update : IntelHexFormat) :
    Option IntelHexFormat :=
  if record.payload.length = required ∧ record.field = 0 then some update else none

/-- The fields a control record sets, unless it is refused. Unknown types set nothing and are not
refused. -/
def CheckedRecord.update (record : CheckedRecord) (hexFile : IntelHexFormat) :
    Option IntelHexFormat :=
  if record.kind = 1 then record.guarded 0 { hexFile with endOfFile := true }
  else if record.kind = 2 then
    record.guarded 0
      { hexFile with addressBase := record.field.toUInt32 <<< 4, fileMode := .segmented }
  else if record.kind = 3 then
    record.guarded 4 { hexFile with startSegmentAddress := bigEndianWord record.bytes }
  else if record.kind = 4 then
    record.guarded 2
      { hexFile with
        addressBase := upperWord (record.payload.getD 0 0) (record.payload.getD 1 0)
        fileMode := .linear }
  else if record.kind = 5 then
    record.guarded 4 { hexFile with startLinearAddress := bigEndianWord record.bytes }
  else some hexFile

/-- What a record does to the state. Data records outside linear mode are accepted without
effect. -/
def CheckedRecord.process (record : CheckedRecord) (heap : Heap Block)
    (hexFile : IntelHexFormat) : Run (Bool × Heap Block × IntelHexFormat) :=
  if record.kind = 0 then
    if hexFile.fileMode = .linear then
      storeAll heap hexFile (pieces hexFile record.field record.payload)
    else .ok (true, heap, hexFile)
  else
    (record.update hexFile).elim (.ok (false, heap, hexFile)) fun update =>
      .ok (true, heap, update)

/-! ## The array is read as a record -/

section Reading

variable (heap : Heap Block) (hexFile : IntelHexFormat)

/-- `AddBlock` reads no more bytes than it is told to add. The bytes behind may be anything. -/
theorem add_block_taken (address : u32) (data : List u8) (dataLen : u32) :
    addBlock heap hexFile address data dataLen =
      addBlock heap hexFile address (data.take dataLen.toNat) dataLen := by
  simp only [addBlock, appendToBlock, insertBlock, copy_taken]

/-- Linking a block sets no field but the list pointers. The other fields are carried through each
of its branches. -/
theorem link_header (addAfter : Option Nat) (block : Block)
    (linked : Heap Block × IntelHexFormat)
    (returned : linkBlock heap hexFile addAfter block = .ok linked) :
    SameHeader hexFile linked.2 := by
  unfold linkBlock at returned
  cases head : hexFile.blockHead with
  | none =>
    simp only [head] at returned
    rw [← Except.ok.inj returned]
    rfl
  | some first =>
    cases addAfter with
    | none =>
      simp only [head] at returned
      rw [← Except.ok.inj returned]
      rfl
    | some position =>
      simp only [head] at returned
      obtain ⟨node, _, writing⟩ := (bind_ok_iff _ _ _).mp returned
      obtain ⟨changed, _, last⟩ := (bind_ok_iff _ _ _).mp writing
      rw [← Except.ok.inj last]
      rfl

/-- A call that returns sets no field but the list pointers. The total is counted by the
caller. -/
theorem add_block_header (address : u32) (data : List u8) (dataLen : u32)
    (result : Bool × Heap Block × IntelHexFormat)
    (returned : addBlock heap hexFile address data dataLen = .ok result) :
    SameHeader hexFile result.2.2 := by
  obtain ⟨⟨appendBlock, addAfter⟩, _, routed⟩ := (bind_ok_iff _ _ _).mp returned
  cases appendBlock with
  | some pointer =>
    obtain ⟨node, _, following⟩ := (bind_ok_iff _ _ _).mp routed
    cases granted : heap.grants 0 with
    | false =>
      rw [heap.request_answer false granted] at following
      simp at following
    | true =>
      rw [heap.request_answer true granted] at following
      obtain ⟨filled, _, writing⟩ := (bind_ok_iff _ _ _).mp following
      obtain ⟨changed, _, last⟩ := (bind_ok_iff _ _ _).mp writing
      rw [← Except.ok.inj last]
      rfl
  | none =>
    obtain ⟨overlapped, _, following⟩ := (bind_ok_iff _ _ _).mp routed
    cases overlapped with
    | true =>
      rw [← Except.ok.inj following]
      rfl
    | false =>
      cases granted : heap.grants 0 with
      | false =>
        rw [heap.request_answer false granted] at following
        simp at following
      | true =>
        rw [heap.request_answer true granted] at following
        cases again : heap.grants 1 with
        | false =>
          simp only [Bool.false_eq_true, if_false, if_true] at following
          rw [heap.request.2.request_answer false again] at following
          simp only [Bool.false_eq_true, if_false] at following
          rw [← Except.ok.inj following]
          rfl
        | true =>
          simp only [Bool.false_eq_true, if_false, if_true] at following
          rw [heap.request.2.request_answer true again] at following
          simp only [if_true] at following
          obtain ⟨filled, _, linking⟩ := (bind_ok_iff _ _ _).mp following
          obtain ⟨linked, link, advancing⟩ := (bind_ok_iff _ _ _).mp linking
          obtain ⟨advanced, advance, last⟩ := (bind_ok_iff _ _ _).mp advancing
          obtain ⟨tail, _, relinked⟩ := (bind_ok_iff _ _ _).mp advance
          have header := link_header _ hexFile addAfter _ linked link
          rw [← Except.ok.inj last, SameHeader, ← Except.ok.inj relinked]
          rw [SameHeader] at header
          rw [header]

/-- Storing the payload adds its first bytes. The array behind the payload is not looked at. -/
theorem store_payload_bytes (kind : u8) (field : u16) (payload rest : List u8) (stored : Nat)
    (few : stored ≤ payload.length) (count : payload.length ≤ 255) :
    storePayload heap hexFile (recordBytes kind field payload ++ rest) (UInt8.ofNat stored) =
      storeBytes heap hexFile (dataAddress hexFile field) (payload.take stored) := by
  have word : (UInt8.ofNat stored).toUInt32 = UInt32.ofNat stored := by
    rw [← UInt32.toNat_inj, UInt8.toNat_toUInt32, UInt8.toNat_ofNat',
      UInt32.toNat_ofNat_of_lt' (by rw [UInt32.size]; omega)]
    omega
  have counted : (UInt32.ofNat stored).toNat = stored :=
    UInt32.toNat_ofNat_of_lt' (by rw [UInt32.size]; omega)
  have size : (payload.take stored).length = stored := List.length_take_of_le few
  have bytes : ((recordBytes kind field payload ++ rest).drop 4).take stored =
      payload.take stored := by
    rw [record_payload, List.take_append_of_le_length few]
  rw [storePayload, storeBytes, record_field, word, add_block_taken, counted, bytes, size,
    ← dataAddress]
  cases addBlock heap hexFile (dataAddress hexFile field) (payload.take stored)
      (UInt32.ofNat stored) with
  | error fault => rfl
  | ok result =>
    obtain ⟨accepted, changed, relinked⟩ := result
    cases accepted <;> rfl

/-- A single range is added by one call. No second range follows. -/
theorem store_all_single (address : u32) (bytes : List u8) :
    storeAll heap hexFile [(address, bytes)] = storeBytes heap hexFile address bytes := by
  rw [storeAll]
  cases storeBytes heap hexFile address bytes with
  | error fault => rfl
  | ok result =>
    obtain ⟨accepted, changed, relinked⟩ := result
    cases accepted <;> rfl

/-- A data record in linear mode adds its ranges. The range behind 2^32 comes first, as in the
source. -/
theorem process_pieces (field : u16) (payload rest : List u8) (mode : hexFile.fileMode = .linear)
    (short : payload.length ≤ 251) :
    processRecord heap hexFile (recordBytes 0 field payload ++ rest) =
      storeAll heap hexFile (pieces hexFile field payload) := by
  by_cases crossing : hexFile.addressBase.toNat + field.toNat < 2 ^ 32 ∧
      2 ^ 32 < hexFile.addressBase.toNat + field.toNat + payload.length
  · have called := process_crossing heap hexFile field payload rest mode short crossing.1 crossing.2
    generalize distance : 2 ^ 32 - (hexFile.addressBase.toNat + field.toNat) = split at called
    have size : (payload.drop split).length = payload.length - split := List.length_drop
    have counted : (UInt32.ofNat (payload.length - split)).toNat = payload.length - split :=
      UInt32.toNat_ofNat_of_lt' (by rw [UInt32.size]; omega)
    have bytes : ((recordBytes 0 field payload ++ rest).drop (4 + split)).take
        (payload.length - split) = payload.drop split := by
      rw [← List.drop_drop, record_payload, List.drop_append_of_le_length (by omega),
        List.take_left' size]
    rw [called, pieces, if_pos crossing, distance, storeAll, storeBytes, add_block_taken, counted,
      bytes, size]
    have header := add_block_header heap hexFile 0 (payload.drop split)
      (UInt32.ofNat (payload.length - split))
    cases first : addBlock heap hexFile 0 (payload.drop split)
        (UInt32.ofNat (payload.length - split)) with
    | error fault => rfl
    | ok result =>
      obtain ⟨accepted, changed, relinked⟩ := result
      cases accepted with
      | false => rfl
      | true =>
        obtain ⟨_, base, _⟩ := same_header_fields _ _ (header _ first)
        have address : dataAddress hexFile field = dataAddress { relinked with
            totalLength := relinked.totalLength + UInt32.ofNat (payload.length - split) }
            field := by
          rw [dataAddress, dataAddress, base]
        simp only [ok_bind, if_true, Except.map, credited]
        rw [store_payload_bytes _ _ 0 field payload rest split (by omega) (by omega),
          store_all_single, address]
  · have inside : ¬ crosses hexFile (recordBytes 0 field payload ++ rest) = true := by
      rw [crosses_iff hexFile field payload rest (by omega)]
      exact crossing
    rw [process_whole heap hexFile field payload rest mode inside,
      store_payload_bytes heap hexFile 0 field payload rest _ (Nat.le_refl _) (by omega),
      List.take_length, pieces, if_neg crossing, store_all_single]

/-- A control record is refused or makes its update. The address field has to be zero too. -/
theorem control_update (record : CheckedRecord) (rest : List u8) (required : u8)
    (update same : IntelHexFormat) (count : record.payload.length ≤ 251)
    (agrees : record.payload.length = required.toNat → update = same) :
    controlRecord heap hexFile (record.bytes ++ rest) required update =
      (record.guarded required.toNat same).elim (.ok (false, heap, hexFile)) fun update =>
        .ok (true, heap, update) := by
  have counted : UInt8.ofNat record.payload.length = required ↔
      record.payload.length = required.toNat := by
    rw [← UInt8.toNat_inj, UInt8.toNat_ofNat', Nat.mod_eq_of_lt (by omega)]
  rw [controlRecord, CheckedRecord.bytes, record_count, record_field, CheckedRecord.guarded]
  by_cases size : record.payload.length = required.toNat
  · by_cases zero : record.field = 0
    · rw [if_neg (not_not.mpr (counted.mpr size)), if_neg (not_not.mpr zero), if_pos ⟨size, zero⟩,
        agrees size]
      rfl
    · rw [if_neg (not_not.mpr (counted.mpr size)), if_pos zero, if_neg fun both => zero both.2]
      rfl
  · rw [if_pos fun same => size (counted.mp same), if_neg fun both => size both.1]
    rfl

/-- The bytes of a payload in the array. It follows the four bytes in front. -/
theorem payload_byte (record : CheckedRecord) (rest : List u8) (index : Nat)
    (inside : index < record.payload.length) :
    (record.bytes ++ rest).getD (4 + index) 0 = record.payload.getD index 0 := by
  have behind := record_payload record.kind record.field record.payload rest
  have same : (record.bytes ++ rest)[4 + index]? = ((record.bytes ++ rest).drop 4)[index]? := by
    rw [List.getElem?_drop]
  rw [List.getD_eq_getElem?_getD, same, CheckedRecord.bytes, behind,
    List.getElem?_append_left inside, ← List.getD_eq_getElem?_getD]

/-- A word of four payload bytes. What stands behind the record is not read. -/
theorem payload_word (record : CheckedRecord) (rest : List u8)
    (count : record.payload.length = 4) :
    bigEndianWord (record.bytes ++ rest) = bigEndianWord record.bytes := by
  have front : ∀ index < 4, (record.bytes ++ rest).getD (4 + index) 0 =
      record.bytes.getD (4 + index) 0 := by
    intro index inside
    have behind := payload_byte record [] index (by omega)
    rw [List.append_nil] at behind
    rw [payload_byte record rest index (by omega), behind]
  simp only [bigEndianWord]
  rw [front 0 (by omega), front 1 (by omega), front 2 (by omega), front 3 (by omega)]

/-- The switch over the record type does what the record stands for. From here on records are
dealt with through `CheckedRecord.process`. -/
theorem process_record (record : CheckedRecord) (rest : List u8)
    (count : record.payload.length ≤ 251) :
    processRecord heap hexFile (record.bytes ++ rest) = record.process heap hexFile := by
  have kind : (record.bytes ++ rest).getD 3 0 = record.kind :=
    record_kind record.kind record.field record.payload rest
  have control := fun required update same =>
    control_update heap hexFile record rest required update same count
  have field : addressField (record.bytes ++ rest) = record.field :=
    record_field record.kind record.field record.payload rest
  by_cases dataKind : record.kind = 0
  · rw [CheckedRecord.process, if_pos dataKind]
    have bytes : record.bytes = recordBytes 0 record.field record.payload := by
      rw [CheckedRecord.bytes, dataKind]
    by_cases mode : hexFile.fileMode = .linear
    · rw [if_pos mode, bytes, process_pieces heap hexFile _ _ rest mode count]
    · rw [if_neg mode, processRecord, kind, if_pos dataKind]
      cases found : hexFile.fileMode with
      | linear => exact absurd found mode
      | segmented => rfl
      | none => rfl
  · rw [CheckedRecord.process, if_neg dataKind]
    simp only [processRecord, kind, CheckedRecord.update, field]
    rw [if_neg dataKind]
    split_ifs
    · exact control 0 _ _ fun _ => rfl
    · exact control 0 _ _ fun _ => rfl
    · refine control 4 _ _ fun size => ?_
      rw [payload_word record rest size]
    · refine control 2 _ _ fun size => ?_
      have bytes := payload_byte record rest
      rw [size] at bytes
      rw [upperWord, ← bytes 0 (by decide), ← bytes 1 (by decide)]
    · refine control 4 _ _ fun size => ?_
      rw [payload_word record rest size]
    · rfl

/-- A line is passed over, refused for its text, or processed as the record it spells. It is the
equation of the function over the checked records. -/
theorem parse_record (line : List u8) (data : LocalBuffer) :
    parseOneLine heap hexFile line data =
      if IsRecord line then
        if TextChecks data (recordText line) then
          (recordOf (recordArray line data)).process heap hexFile
        else .ok (false, heap, hexFile)
      else .ok (true, heap, hexFile) := by
  rw [parse_line]
  by_cases checks : TextChecks data (recordText line)
  · obtain ⟨short, rest, whole⟩ := checked_record (recordText line) data checks
    have processed := process_record heap hexFile (recordOf (recordArray line data)) rest short
    have array : (recordOf (recordArray line data)).bytes ++ rest = recordArray line data :=
      whole.symm
    rw [if_pos checks, if_pos checks, ← processed, array]
  · rw [if_neg checks, if_neg checks]

end Reading

/-! ## Adding one range -/

section Ranges

variable (heap : Heap Block) (hexFile : IntelHexFormat) (nodes : List BlockNode) (address : u32)
  (bytes : List u8)

/-- Behind so many bytes more the list pointers may have moved and the total has grown. Neither
the start addresses nor the mode nor the base differ. -/
def Counted (before after : IntelHexFormat) (count : Nat) : Prop :=
  after = { before with
    blockHead := after.blockHead
    blockTail := after.blockTail
    totalLength := before.totalLength + UInt32.ofNat count }

/-- An accepted call leaves the counted state. The total grows by the number of bytes of the
call. -/
theorem credited_counted (relinked : IntelHexFormat) (count : Nat)
    (header : SameHeader hexFile relinked) :
    Counted hexFile { relinked with totalLength := relinked.totalLength + UInt32.ofNat count }
      count := by
  rw [SameHeader] at header
  rw [Counted, header]

/-- An accepted range: one route of `AddBlock` was taken and the bytes were counted. It is what a
run over lines is put together from. -/
structure Stored (changed : Heap Block) (relinked : IntelHexFormat) (after : List BlockNode) :
    Prop where
  owns : Owns changed relinked after
  route : Route address bytes (values nodes) true (values after)
  counted : Counted hexFile relinked bytes.length

/-- Whatever is granted, a range is stored or nothing happens, unless the call faults. A call that
stores nothing may still have asked for memory. -/
theorem store_outcome (owns : Owns heap hexFile nodes) (size : bytes.length < 2 ^ 32) :
    (∃ fault, storeBytes heap hexFile address bytes = .error fault) ∨
    (∃ changed, storeBytes heap hexFile address bytes = .ok (false, changed, hexFile) ∧
      changed.cells = heap.cells) ∨
    ∃ changed relinked after,
      storeBytes heap hexFile address bytes = .ok (true, changed, relinked) ∧
      Stored hexFile nodes address bytes changed relinked after := by
  have word : (UInt32.ofNat bytes.length).toNat = bytes.length := UInt32.toNat_ofNat_of_lt' size
  have outcome := add_block_outcomes heap hexFile nodes address bytes (UInt32.ofNat bytes.length)
    owns (by rw [word])
  rw [storeBytes]
  generalize addBlock heap hexFile address bytes (UInt32.ofNat bytes.length) = result at outcome ⊢
  cases outcome with
  | refused => exact Or.inr (Or.inl ⟨heap, rfl, rfl⟩)
  | unallocated => exact Or.inl ⟨_, rfl⟩
  | released => exact Or.inr (Or.inl ⟨_, rfl, rfl⟩)
  | overflow => exact Or.inl ⟨_, rfl⟩
  | stored _ _ _ changed relinked after ownsAfter route header =>
    rw [word, List.take_length] at route
    exact Or.inr (Or.inr ⟨changed, _, after, rfl, owns_congr changed relinked _ after ownsAfter rfl
      rfl, route, credited_counted hexFile relinked _ header⟩)

/-- With every request granted the fault is an overflow and a refusal changes nothing. The
overflow is that of a length field. -/
theorem store_generous (owns : Owns heap hexFile nodes) (generous : heap.Generous)
    (size : bytes.length < 2 ^ 32) :
    (storeBytes heap hexFile address bytes = .error .outOfBounds ∧
      Overflows (values nodes) address bytes.length) ∨
    (storeBytes heap hexFile address bytes = .ok (false, heap, hexFile) ∧
      Route address bytes (values nodes) false (values nodes)) ∨
    ∃ changed relinked after,
      storeBytes heap hexFile address bytes = .ok (true, changed, relinked) ∧
      Stored hexFile nodes address bytes changed relinked after ∧ changed.Generous := by
  have word : (UInt32.ofNat bytes.length).toNat = bytes.length := UInt32.toNat_ofNat_of_lt' size
  have outcome := add_block_cases heap hexFile nodes address bytes (UInt32.ofNat bytes.length)
    owns generous (by rw [word])
  rw [Outcome, word, List.take_length] at outcome
  rw [storeBytes]
  rcases outcome with ⟨fault, overflows⟩ | ⟨accepted, changed, relinked, after, result, added⟩
  · rw [fault]
    exact Or.inl ⟨rfl, overflows⟩
  · rw [result]
    cases accepted with
    | false =>
      obtain ⟨rfl, rfl⟩ := added.refused rfl
      obtain rfl := owns_unique changed relinked after nodes added.owns owns
      exact Or.inr (Or.inl ⟨rfl, added.route⟩)
    | true =>
      exact Or.inr (Or.inr ⟨changed, _, after, rfl,
        ⟨owns_congr changed relinked _ after added.owns rfl rfl, added.route,
          credited_counted hexFile relinked _ added.header⟩, added.generous⟩)

end Ranges

/-! ## Reachable states -/

/-- Adding ranges keeps the list owned. Refusals count as well, since the ranges in front of one
stay. -/
theorem store_all_owns (heap changed : Heap Block) (hexFile relinked : IntelHexFormat)
    (nodes : List BlockNode) (ranges : List (u32 × List u8)) (accepted : Bool)
    (owns : Owns heap hexFile nodes) (sizes : ∀ range ∈ ranges, range.2.length < 2 ^ 32)
    (returned : storeAll heap hexFile ranges = .ok (accepted, changed, relinked)) :
    ∃ after, Owns changed relinked after := by
  induction ranges generalizing heap hexFile nodes with
  | nil =>
    obtain ⟨_, rfl, rfl⟩ : true = accepted ∧ heap = changed ∧ hexFile = relinked := by
      simpa [storeAll] using returned
    exact ⟨nodes, owns⟩
  | cons range rest inductionHypothesis =>
    obtain ⟨address, bytes⟩ := range
    rw [storeAll] at returned
    rcases store_outcome heap hexFile nodes address bytes owns (sizes _ List.mem_cons_self) with
      ⟨fault, result⟩ | ⟨others, result, cells⟩ | ⟨others, following, after, result, stored⟩
    · simp [result] at returned
    · obtain ⟨_, rfl, rfl⟩ : false = accepted ∧ others = changed ∧ hexFile = relinked := by
        simpa [result] using returned
      exact ⟨nodes, owns_cells heap others hexFile nodes owns cells⟩
    · simp only [result, ok_bind, if_true] at returned
      exact inductionHypothesis others following after stored.owns
        (fun range member => sizes range (List.mem_cons_of_mem _ member)) returned

/-- The ranges of a record are short. So each of them is counted exactly. -/
theorem piece_sizes (hexFile : IntelHexFormat) (field : u16) (payload : List u8)
    (range : u32 × List u8) (member : range ∈ pieces hexFile field payload) :
    range.2.length ≤ payload.length := by
  simp only [pieces] at member
  split_ifs at member
  · rcases List.mem_cons.mp member with rfl | second
    · rw [List.length_drop]
      omega
    · rw [List.mem_singleton.mp second, List.length_take]
      omega
  · rw [List.mem_singleton.mp member]

/-- An update keeps the list pointers and the total. The blocks are not touched by a control
record. -/
theorem update_list (record : CheckedRecord) (hexFile update : IntelHexFormat)
    (updates : record.update hexFile = some update) :
    update.blockHead = hexFile.blockHead ∧ update.blockTail = hexFile.blockTail ∧
      update.totalLength = hexFile.totalLength := by
  have guarded : ∀ required changed, record.guarded required changed = some update →
      changed = update := by
    intro required changed taken
    rw [CheckedRecord.guarded] at taken
    split_ifs at taken
    exact Option.some.inj taken
  unfold CheckedRecord.update at updates
  split_ifs at updates
  · rw [← guarded _ _ updates]
    exact ⟨rfl, rfl, rfl⟩
  · rw [← guarded _ _ updates]
    exact ⟨rfl, rfl, rfl⟩
  · rw [← guarded _ _ updates]
    exact ⟨rfl, rfl, rfl⟩
  · rw [← guarded _ _ updates]
    exact ⟨rfl, rfl, rfl⟩
  · rw [← guarded _ _ updates]
    exact ⟨rfl, rfl, rfl⟩
  · rw [← Option.some.inj updates]
    exact ⟨rfl, rfl, rfl⟩

/-- A record keeps the list owned. The payload has to fit the array of the parser. -/
theorem process_owns (heap changed : Heap Block) (hexFile relinked : IntelHexFormat)
    (nodes : List BlockNode) (record : CheckedRecord) (accepted : Bool)
    (owns : Owns heap hexFile nodes) (count : record.payload.length ≤ 251)
    (returned : record.process heap hexFile = .ok (accepted, changed, relinked)) :
    ∃ after, Owns changed relinked after := by
  rw [CheckedRecord.process] at returned
  split_ifs at returned
  · refine store_all_owns heap changed hexFile relinked nodes _ accepted owns ?_ returned
    intro range member
    have short := piece_sizes hexFile record.field record.payload range member
    omega
  · obtain ⟨_, rfl, rfl⟩ : true = accepted ∧ heap = changed ∧ hexFile = relinked := by
      simpa using returned
    exact ⟨nodes, owns⟩
  · cases updates : record.update hexFile with
    | none =>
      obtain ⟨_, rfl, rfl⟩ : false = accepted ∧ heap = changed ∧ hexFile = relinked := by
        simpa [updates] using returned
      exact ⟨nodes, owns⟩
    | some update =>
      obtain ⟨_, rfl, rfl⟩ : true = accepted ∧ heap = changed ∧ update = relinked := by
        simpa [updates] using returned
      obtain ⟨head, tail, _⟩ := update_list record hexFile update updates
      exact ⟨nodes, owns_congr heap hexFile update nodes owns head tail⟩

/-- A checked record is short. The array of 256 bytes has room for five bytes more. -/
theorem checked_short (line : List u8) (data : LocalBuffer)
    (checks : TextChecks data (recordText line)) :
    (recordOf (recordArray line data)).payload.length ≤ 251 :=
  (checked_record (recordText line) data checks).1

/-- A line keeps the list owned. Proof: one case for each of the three outcomes of a line. -/
theorem line_owns (heap changed : Heap Block) (hexFile relinked : IntelHexFormat)
    (nodes : List BlockNode) (line : List u8) (data : LocalBuffer) (accepted : Bool)
    (owns : Owns heap hexFile nodes)
    (returned : parseOneLine heap hexFile line data = .ok (accepted, changed, relinked)) :
    ∃ after, Owns changed relinked after := by
  rw [parse_record] at returned
  split_ifs at returned with record checks
  · exact process_owns heap changed hexFile relinked nodes _ accepted owns
      (checked_short line data checks) returned
  · obtain ⟨_, rfl, rfl⟩ : false = accepted ∧ heap = changed ∧ hexFile = relinked := by
      simpa using returned
    exact ⟨nodes, owns⟩
  · obtain ⟨_, rfl, rfl⟩ : true = accepted ∧ heap = changed ∧ hexFile = relinked := by
      simpa using returned
    exact ⟨nodes, owns⟩

/-- Lines keep the list owned. This is the invariant of a load, accepted or not. -/
theorem lines_own (heap changed : Heap Block) (hexFile relinked : IntelHexFormat)
    (nodes : List BlockNode) (lines : List (List u8 × LocalBuffer)) (accepted : Bool)
    (owns : Owns heap hexFile nodes)
    (returned : parseLines heap hexFile lines = .ok (accepted, changed, relinked)) :
    ∃ after, Owns changed relinked after := by
  induction lines generalizing heap hexFile nodes with
  | nil =>
    obtain ⟨_, rfl, rfl⟩ : true = accepted ∧ heap = changed ∧ hexFile = relinked := by
      simpa [parseLines] using returned
    exact ⟨nodes, owns⟩
  | cons entry rest inductionHypothesis =>
    obtain ⟨line, data⟩ := entry
    rw [parseLines] at returned
    obtain ⟨⟨taken, others, following⟩, parsed, returned⟩ := (bind_ok_iff _ _ _).mp returned
    obtain ⟨middle, owned⟩ := line_owns heap others hexFile following nodes line data taken owns
      parsed
    cases taken with
    | true => exact inductionHypothesis others following middle owned returned
    | false =>
      obtain ⟨_, rfl, rfl⟩ : false = accepted ∧ others = changed ∧ following = relinked := by
        simpa using returned
      exact ⟨middle, owned⟩

/-- Every reachable state owns its list: the nodes from the head end in null, the tail
pointer names the last one and every length field is right. -/
theorem reachable_owns (heap : Heap Block) (hexFile : IntelHexFormat)
    (reachable : Reachable heap hexFile) : ∃ nodes, Owns heap hexFile nodes := by
  induction reachable with
  | fresh grants => exact ⟨[], owns_nothing _ _ rfl rfl⟩
  | line before changed hexFile relinked line data accepted _ parsed inductionHypothesis =>
    obtain ⟨nodes, owns⟩ := inductionHypothesis
    exact line_owns before changed hexFile relinked nodes line data accepted owns parsed

end EffiLib.IntelHex
