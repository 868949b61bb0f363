import EffiLib.IntelHex.Loading
import EffiLib.IntelHex.RecordLines

/-!
# Records up to the top of the address space

In linear mode a data record names the addresses base + field + offset modulo 2^32,
and a type-04 record sets the base. A record that runs across 2^32 is stored in two
calls. Each call is a range apart from the blocks, so one step keeps the list tidy
and adds exactly the named bytes, as long as no block ends at 2^32 yet. There the
machine end of the last block is zero and the next insertion goes astray.
-/

namespace EffiLib.IntelHex

open Buffers LinkedHeap Segments

/-- The records of linear mode: data at an address field, or the two upper bytes of
the base. -/
inductive HexRecord where
  | data (field : u16) (payload : List u8)
  | base (high low : u8)

/-- The bytes of the record's line. Count and checksum follow from the rest. -/
def HexRecord.bytes : HexRecord → List u8
  | .data field payload => recordBytes 0 field payload
  | .base high low => recordBytes 4 0 [high, low]

/-- A data record has between 1 and 251 bytes of payload. A longer one would not fit into the
characters that the parser decodes. -/
def HexRecord.Countable : HexRecord → Prop
  | .data _ payload => 1 ≤ payload.length ∧ payload.length ≤ 251
  | .base _ _ => True

/-- The base a type-04 record sets. Its lower half is zero. -/
def upperWord (high low : u8) : u32 := (high.toUInt32 <<< 24) + (low.toUInt32 <<< 16)

/-- The addresses a data record names, each with its byte. Behind the last address they start over
at zero, in one record. -/
def placed (base : u32) (field : u16) (payload : List u8) : List (Nat × u8) :=
  payload.mapIdx fun offset byte => ((base.toNat + field.toNat + offset) % 2 ^ 32, byte)

/-- The addresses all data records name, under the base that is current for each. A base holds
until the next record that sets one. -/
def named : u32 → List HexRecord → List (Nat × u8)
  | _, [] => []
  | base, .data field payload :: rest => placed base field payload ++ named base rest
  | _, .base high low :: rest => named (upperWord high low) rest

/-- What a record places: one entry for each payload byte, at consecutive addresses that wrap at
the end of the address space. -/
theorem placed_mem (base : u32) (field : u16) (payload : List u8) (entry : Nat × u8) :
    entry ∈ placed base field payload ↔
      ∃ offset, ∃ inside : offset < payload.length,
        entry = ((base.toNat + field.toNat + offset) % 2 ^ 32, payload[offset]) := by
  simp only [placed, List.mem_mapIdx, eq_comm]

/-- The address of each byte of a payload has an entry. The address is the sum of base, field and
offset modulo 2^32. -/
theorem placed_covers (base : u32) (field : u16) (payload : List u8) (offset position : Nat)
    (inside : offset < payload.length)
    (same : (base.toNat + field.toNat + offset) % 2 ^ 32 = position) :
    ∃ entry ∈ placed base field payload, entry.1 = position :=
  ⟨_, (placed_mem base field payload _).mpr ⟨offset, inside, rfl⟩, same⟩

/-- A map that has the entries and otherwise answers as before. Entries at one address would
contradict each other, so they are distinct where this is used. -/
def Enters (entries : List (Nat × u8)) (held after : Nat → Option u8) : Prop :=
  (∀ entry ∈ entries, after entry.1 = some entry.2) ∧
    ∀ position, (∀ entry ∈ entries, entry.1 ≠ position) → after position = held position

/-- A record that does not run across 2^32 enters its addresses as one segment. The wrapped first
address may be low, if base and field already run over. -/
theorem overlay_enters (base : u32) (field : u16) (payload : List u8) (held : Nat → Option u8)
    (room : (base.toNat + field.toNat) % 2 ^ 32 + payload.length ≤ 2 ^ 32) :
    Enters (placed base field payload) held
      (overlay ⟨(base.toNat + field.toNat) % 2 ^ 32, payload⟩ held) := by
  constructor
  · intro entry member
    obtain ⟨offset, inside, rfl⟩ := (placed_mem _ _ _ _).mp member
    have address : (base.toNat + field.toNat + offset) % 2 ^ 32 =
        (base.toNat + field.toNat) % 2 ^ 32 + offset := by omega
    have found := Segment.at_offset (⟨(base.toNat + field.toNat) % 2 ^ 32, payload⟩ : Segment u8)
      offset
    simp only at found
    rw [overlay, address, found, List.getElem?_eq_getElem inside]
    rfl
  · intro position outside
    have silent :
        (⟨(base.toNat + field.toNat) % 2 ^ 32, payload⟩ : Segment u8).at? position = none := by
      apply (Segment.at_none_iff _ _).mpr
      simp only [Segment.stop]
      by_contra covered
      rw [not_or, Nat.not_lt, Nat.not_le] at covered
      have inside : position - (base.toNat + field.toNat) % 2 ^ 32 < payload.length := by omega
      exact outside _ ((placed_mem _ _ _ _).mpr ⟨_, inside, rfl⟩) (by simp only; omega)
    rw [overlay, silent]
    rfl

/-- A record that runs across 2^32 enters its addresses as two segments. The second of them begins
at address 0. -/
theorem overlay_halves (base : u32) (field : u16) (payload : List u8) (held : Nat → Option u8)
    (begins : base.toNat + field.toNat < 2 ^ 32) (count : payload.length ≤ 251)
    (crossing : 2 ^ 32 < base.toNat + field.toNat + payload.length) :
    Enters (placed base field payload) held
      (overlay ⟨base.toNat + field.toNat, payload.take (2 ^ 32 - (base.toNat + field.toNat))⟩
        (overlay ⟨0, payload.drop (2 ^ 32 - (base.toNat + field.toNat))⟩ held)) := by
  generalize distance : 2 ^ 32 - (base.toNat + field.toNat) = split
  constructor
  · intro entry member
    obtain ⟨offset, inside, rfl⟩ := (placed_mem _ _ _ _).mp member
    simp only [overlay]
    by_cases early : offset < split
    · have address :
          (base.toNat + field.toNat + offset) % 2 ^ 32 = base.toNat + field.toNat + offset := by
        omega
      have found := Segment.at_offset (⟨base.toNat + field.toNat, payload.take split⟩ : Segment u8)
        offset
      simp only [List.getElem?_take_of_lt early, List.getElem?_eq_getElem inside] at found
      rw [address, found]
      rfl
    · have address : (base.toNat + field.toNat + offset) % 2 ^ 32 = 0 + (offset - split) := by omega
      have beyond : (⟨base.toNat + field.toNat, payload.take split⟩ : Segment u8).at?
          (0 + (offset - split)) = none :=
        (Segment.at_none_iff _ _).mpr (Or.inl (by simp only; omega))
      have found := Segment.at_offset (⟨0, payload.drop split⟩ : Segment u8) (offset - split)
      simp only [List.getElem?_drop] at found
      rw [address, beyond, found, show split + (offset - split) = offset by omega,
        List.getElem?_eq_getElem inside]
      rfl
  · intro position outside
    have distinct : ∀ offset, offset < payload.length →
        (base.toNat + field.toNat + offset) % 2 ^ 32 ≠ position :=
      fun offset inside => outside _ ((placed_mem _ _ _ _).mpr ⟨offset, inside, rfl⟩)
    have low : (⟨0, payload.drop split⟩ : Segment u8).at? position = none := by
      apply (Segment.at_none_iff _ _).mpr
      simp only [Segment.stop, List.length_drop]
      by_contra covered
      rw [not_or, Nat.not_lt, Nat.not_le] at covered
      exact distinct (split + position) (by omega) (by omega)
    have high :
        (⟨base.toNat + field.toNat, payload.take split⟩ : Segment u8).at? position = none := by
      apply (Segment.at_none_iff _ _).mpr
      simp only [Segment.stop, List.length_take]
      by_contra covered
      rw [not_or, Nat.not_lt, Nat.not_le] at covered
      exact distinct (position - (base.toNat + field.toNat)) (by omega) (by omega)
    simp only [overlay, low, high]
    rfl

/-! ## One record -/

/-- The state between two records: a tidy list in linear mode under a known base. Each step of a
run over records is from one such state to another. -/
structure Reading (heap : Heap Block) (hexFile : IntelHexFormat) (base : u32)
    (blocks : List Block) : Prop where
  holds : Holds heap hexFile blocks
  generous : heap.Generous
  tidy : Tidy blocks
  mode : hexFile.fileMode = .linear
  base : hexFile.addressBase = base

/-- The two fields a linear record leaves alone. They are what the rest of the file is left
for. -/
def SameMarks (before after : IntelHexFormat) : Prop :=
  after.startLinearAddress = before.startLinearAddress ∧ after.endOfFile = before.endOfFile

/-- The marks stay over two steps. So they stay over a run of records. -/
theorem SameMarks.trans {before between after : IntelHexFormat} (first : SameMarks before between)
    (second : SameMarks between after) : SameMarks before after :=
  ⟨second.1.trans first.1, second.2.trans first.2⟩

/-- The state goes on from a return that only touched the list. The base and the mode are among
what stays. -/
theorem Reading.continued {heap changed : Heap Block} {hexFile relinked : IntelHexFormat}
    {base : u32} {blocks : List Block} {after : List BlockNode}
    (reading : Reading heap hexFile base blocks) (owns : Owns changed relinked after)
    (generous : changed.Generous) (tidy : Tidy (values after))
    (header : SameHeader hexFile relinked) (total : u32) :
    Reading changed { relinked with totalLength := total } base (values after) := by
  obtain ⟨_, sameBase, sameMode, _⟩ := same_header_fields _ _ header
  exact ⟨⟨after, owns_congr _ relinked _ after owns rfl rfl, rfl⟩, generous, tidy,
    sameMode.trans reading.mode, sameBase.trans reading.base⟩

/-- A type-04 record sets the base and keeps everything else. The mode is linear behind it in any
case. -/
theorem base_parsed (heap : Heap Block) (hexFile : IntelHexFormat) (high low : u8) (line : List u8)
    (data : LocalBuffer) (spells : SpellsLine (HexRecord.base high low).bytes line) :
    parseOneLine heap hexFile line data =
      .ok (true, heap,
        { hexFile with addressBase := upperWord high low, fileMode := .linear }) := by
  obtain ⟨rest, parsed⟩ :=
    (parse_record_line heap hexFile line 4 0 [high, low] data spells (by simp)).1 (by simp)
  have address := record_field 4 0 [high, low] rest
  rw [parsed]
  simp only [processRecord, record_kind, controlRecord, record_count, address]
  rfl

/-- Behind a type-04 record the state is the same under the new base. No block and no mark
changes. -/
theorem base_step (heap : Heap Block) (hexFile : IntelHexFormat) (base : u32) (blocks : List Block)
    (high low : u8) (line : List u8) (data : LocalBuffer)
    (reading : Reading heap hexFile base blocks)
    (spells : SpellsLine (HexRecord.base high low).bytes line) :
    ∃ relinked, parseOneLine heap hexFile line data = .ok (true, heap, relinked) ∧
      Reading heap relinked (upperWord high low) blocks ∧ SameMarks hexFile relinked := by
  obtain ⟨nodes, owns, same⟩ := reading.holds
  exact ⟨_, base_parsed heap hexFile high low line data spells,
    ⟨⟨nodes, owns_congr heap hexFile _ nodes owns rfl rfl, same⟩, reading.generous, reading.tidy,
      rfl, rfl⟩,
    rfl, rfl⟩

/-- An overflowing extension by a range apart from the blocks completes the address
space: the block fills everything below the range, and the range reaches 2^32. -/
theorem overflow_full (range : Range) (blocks : List Block) (tidy : Tidy blocks)
    (below : Below blocks) (overflow : Overflows blocks range.address range.bytes.length) :
    range.segment.stop = 2 ^ 32 ∧ ∀ position < range.segment.start,
      image (segments blocks) position ≠ none := by
  obtain ⟨front, block, back, rfl, touching, overflow, _⟩ := overflow
  have sized := tidy.sized block (by simp)
  have ends := (wrapped_end_eq block _ sized (below block (by simp))).mp touching
  have fits := range.fits
  rw [block.segment_stop sized] at ends
  refine ⟨by rw [range.segment_stop]; omega, ?_⟩
  intro position under silent
  rcases (image_none_iff _ _).mp silent block.segment (by simp) with before | behind
  · rw [Block.segment_start] at before
    omega
  · rw [block.segment_stop sized] at behind
    rw [range.segment_start] at under
    omega

/-- Every address of the space that is not held yet is one of the entries. Only a record stored
into the last gap does. -/
def FillsSpace (entries : List (Nat × u8)) (held : Nat → Option u8) : Prop :=
  ∀ position < 2 ^ 32, held position = none → ∃ entry ∈ entries, entry.1 = position

/-- Taking the first bytes of a record's payload into the list, when they are apart
from the blocks. -/
theorem store_fresh (heap : Heap Block) (hexFile : IntelHexFormat) (base : u32)
    (blocks : List Block) (field : u16) (payload rest : List u8) (stored : Nat)
    (reading : Reading heap hexFile base blocks) (below : Below blocks) (range : Range)
    (address : range.address = dataAddress hexFile field)
    (bytes : range.bytes = payload.take stored) (few : stored ≤ payload.length)
    (count : payload.length ≤ 251) (apart : ∀ block ∈ blocks, block.segment.Apart range.segment) :
    let data := recordBytes 0 field payload ++ rest
    (storePayload heap hexFile data (UInt8.ofNat stored) = .error .outOfBounds ∧
      range.segment.stop = 2 ^ 32 ∧
      ∀ position < range.segment.start, image (segments blocks) position ≠ none) ∨
    ∃ changed relinked after,
      storePayload heap hexFile data (UInt8.ofNat stored) = .ok (true, changed, relinked) ∧
      Reading changed relinked base after ∧ SameMarks hexFile relinked ∧
      (range.segment.stop < 2 ^ 32 → Below after) ∧
      ∀ position, image (segments after) position =
        overlay range.segment (image (segments blocks)) position := by
  obtain ⟨nodes, owns, rfl⟩ := reading.holds
  have size : range.bytes.length = stored := by
    rw [bytes, List.length_take, Nat.min_eq_left few]
  rcases store_payload heap hexFile nodes 0 field payload rest stored owns reading.generous few
    (by omega) with ⟨fault, overflow⟩ | ⟨accepted, changed, relinked, after, result, added⟩
  · rw [← address, ← size] at overflow
    exact Or.inl ⟨fault, overflow_full range _ reading.tidy below overflow⟩
  · rw [← address, ← bytes] at added
    obtain ⟨rfl, tidy, stillBelow, mapped⟩ :=
      added_fresh heap changed hexFile relinked nodes after range
      accepted added reading.tidy below apart
    obtain ⟨_, _, _, marks⟩ := same_header_fields _ _ added.header
    exact Or.inr ⟨changed, _, values after, result,
      reading.continued added.owns added.generous tidy added.header _, ⟨marks.2, marks.1⟩,
      stillBelow, mapped⟩

/-- Adding the part of a crossing record behind 2^32 at address 0. It is stored before the part
below, so a refusal there leaves the file as it was. -/
theorem process_crossing (heap : Heap Block) (hexFile : IntelHexFormat) (field : u16)
    (payload rest : List u8) (mode : hexFile.fileMode = .linear) (count : payload.length ≤ 251)
    (begins : hexFile.addressBase.toNat + field.toNat < 2 ^ 32)
    (crossing : 2 ^ 32 < hexFile.addressBase.toNat + field.toNat + payload.length) :
    let data := recordBytes 0 field payload ++ rest
    let split := 2 ^ 32 - (hexFile.addressBase.toNat + field.toNat)
    processRecord heap hexFile data = (do
      let (accepted, heap, hexFile) ← addBlock heap hexFile 0 (data.drop (4 + split))
        (UInt32.ofNat (payload.length - split))
      if accepted then
        storePayload heap
          { hexFile with
            totalLength := hexFile.totalLength + UInt32.ofNat (payload.length - split) }
          data (UInt8.ofNat split)
      else .ok (false, heap, hexFile)) := by
  intro data split
  have crosses : crosses hexFile data = true :=
    (crosses_iff hexFile field payload rest (by omega)).mpr ⟨begins, crossing⟩
  have top : ((1 : u64) <<< 32).toNat = 2 ^ 32 := rfl
  have baseBound := hexFile.addressBase.toNat_lt
  have fieldBound := field.toNat_lt
  have half : firstHalf hexFile data = UInt32.ofNat split := by
    rw [firstHalf, record_field, ← UInt32.toNat_inj,
      UInt32.toNat_ofNat_of_lt' (by rw [UInt32.size]; omega), UInt64.toNat_toUInt32,
      UInt64.toNat_sub_of_le, UInt64.toNat_sub_of_le, UInt32.toNat_toUInt64, UInt16.toNat_toUInt64,
      top]
    · omega
    · rw [UInt64.le_iff_toNat_le, top, UInt32.toNat_toUInt64]
      omega
    · rw [UInt64.le_iff_toNat_le, UInt64.toNat_sub_of_le, UInt32.toNat_toUInt64,
        UInt16.toNat_toUInt64, top]
      · omega
      · rw [UInt64.le_iff_toNat_le, top, UInt32.toNat_toUInt64]
        omega
  have splitWord : (UInt32.ofNat split).toNat = split :=
    UInt32.toNat_ofNat_of_lt' (by rw [UInt32.size]; omega)
  have countWord : (UInt8.ofNat payload.length).toUInt32.toNat = payload.length := by
    rw [UInt8.toNat_toUInt32, UInt8.toNat_ofNat']
    omega
  have remaining : (UInt8.ofNat payload.length).toUInt32 - UInt32.ofNat split =
      UInt32.ofNat (payload.length - split) := by
    rw [← UInt32.toNat_inj, UInt32.toNat_sub_of_le, countWord, splitWord,
      UInt32.toNat_ofNat_of_lt' (by rw [UInt32.size]; omega)]
    rw [UInt32.le_iff_toNat_le, countWord, splitWord]
    omega
  have byte : (UInt32.ofNat split).toUInt8 = UInt8.ofNat split := by
    rw [← UInt8.toNat_inj, UInt32.toNat_toUInt8, splitWord, UInt8.toNat_ofNat']
  have kind : data.getD 3 0 = 0 := record_kind 0 field payload rest
  have counted : data.getD 0 0 = UInt8.ofNat payload.length := record_count 0 field payload rest
  simp only [processRecord, kind, if_true, mode, linearRecord, crosses, half, splitWord, counted,
    remaining, byte]

section DataStep

variable (heap : Heap Block) (hexFile : IntelHexFormat) (base : u32) (blocks : List Block)
  (field : u16) (payload rest : List u8)

/-- What a data record may do in a state below the top: complete the address space
and fault, or enter its addresses. -/
def DataOutcome (result : Run (Bool × Heap Block × IntelHexFormat)) : Prop :=
  (result = .error .outOfBounds ∧ FillsSpace (placed base field payload)
    (image (segments blocks))) ∨
  ∃ changed relinked after, result = .ok (true, changed, relinked) ∧
    Reading changed relinked base after ∧ SameMarks hexFile relinked ∧
    Enters (placed base field payload) (image (segments blocks)) (image (segments after)) ∧
    ((∀ entry ∈ placed base field payload, entry.1 ≠ 2 ^ 32 - 1) → Below after)

/-- A record in one piece. It takes one call of `AddBlock`, which is apart from all blocks. -/
theorem whole_step (reading : Reading heap hexFile base blocks) (below : Below blocks)
    (positive : 1 ≤ payload.length) (count : payload.length ≤ 251)
    (unused : ∀ entry ∈ placed base field payload, image (segments blocks) entry.1 = none)
    (whole : ¬ (base.toNat + field.toNat < 2 ^ 32 ∧
      2 ^ 32 < base.toNat + field.toNat + payload.length)) :
    DataOutcome hexFile base blocks field payload
      (processRecord heap hexFile (recordBytes 0 field payload ++ rest)) := by
  have baseBound := base.toNat_lt
  have fieldBound := field.toNat_lt
  have address : (dataAddress hexFile field).toNat = (base.toNat + field.toNat) % 2 ^ 32 := by
    rw [data_address, reading.base]
  have room : (base.toNat + field.toNat) % 2 ^ 32 + payload.length ≤ 2 ^ 32 := by omega
  let range : Range :=
    ⟨dataAddress hexFile field, payload, by omega, by omega, by rw [address]; exact room⟩
  have start : range.segment = ⟨(base.toNat + field.toNat) % 2 ^ 32, payload⟩ := by
    simp only [range, Range.segment, address]
  have entry : ∀ position, range.segment.start ≤ position → position < range.segment.stop →
      ∃ entry ∈ placed base field payload, entry.1 = position := by
    intro position begun inside
    rw [start] at begun inside
    simp only [Segment.stop] at begun inside
    exact placed_covers base field payload (position - (base.toNat + field.toNat) % 2 ^ 32) position
      (by omega) (by omega)
  have apart : ∀ block ∈ blocks, block.segment.Apart range.segment := by
    apply (apart_iff_range blocks range reading.tidy.nonempty).mpr
    intro position begun inside
    obtain ⟨named, member, rfl⟩ := entry position begun inside
    exact unused named member
  have inside : ¬ crosses hexFile (recordBytes 0 field payload ++ rest) = true := by
    rw [crosses_iff hexFile field payload rest (by omega), reading.base]
    exact whole
  rw [process_whole heap hexFile field payload rest reading.mode inside]
  rcases store_fresh heap hexFile base blocks field payload rest payload.length reading below range
    rfl
    (by simp [range]) (Nat.le_refl _) count apart with
    ⟨fault, top, full⟩ | ⟨changed, relinked, after, result, following, marks, stillBelow, mapped⟩
  · refine Or.inl ⟨fault, ?_⟩
    intro position bound silent
    refine entry position ?_ (by omega)
    by_contra early
    exact full position (by omega) silent
  · refine Or.inr ⟨changed, relinked, after, result, following, marks, ?_, ?_⟩
    · have enters := overlay_enters base field payload (image (segments blocks)) room
      rw [← start] at enters
      exact (funext mapped) ▸ enters
    · intro short
      apply stillBelow
      by_contra high
      have fits := range.fits
      obtain ⟨named, member, top⟩ := entry (2 ^ 32 - 1) (by
        simp only [range, Range.segment_start, Range.segment_stop] at *
        omega) (by omega)
      exact short named member top

/-- The part of a crossing record behind 2^32 is added at address 0, far below the top. What is
left of the record lies at the top, where no block ends yet. -/
theorem low_part_added (reading : Reading heap hexFile base blocks) (below : Below blocks)
    (count : payload.length ≤ 251) (split : Nat) (beyond : split < payload.length)
    (unused : ∀ position < payload.length - split, image (segments blocks) position = none) :
    ∃ changed relinked after,
      addBlock heap hexFile 0 ((recordBytes 0 field payload ++ rest).drop (4 + split))
        (UInt32.ofNat (payload.length - split)) = .ok (true, changed, relinked) ∧
      Reading changed { relinked with
        totalLength := hexFile.totalLength + UInt32.ofNat (payload.length - split) } base after ∧
      SameMarks hexFile relinked ∧ relinked.totalLength = hexFile.totalLength ∧ Below after ∧
      ∀ position, image (segments after) position =
        overlay ⟨0, payload.drop split⟩ (image (segments blocks)) position := by
  let low : Range := ⟨0, payload.drop split, by rw [List.length_drop]; omega,
    by rw [List.length_drop]; omega, by rw [List.length_drop]; simp; omega⟩
  have lowSegment : low.segment = ⟨0, payload.drop split⟩ := rfl
  have lowApart : ∀ block ∈ blocks, block.segment.Apart low.segment := by
    apply (apart_iff_range blocks low reading.tidy.nonempty).mpr
    intro position _ inside
    simp only [lowSegment, Segment.stop, List.length_drop] at inside
    exact unused position (by omega)
  obtain ⟨nodes, owns, rfl⟩ := reading.holds
  have counted : (UInt32.ofNat (payload.length - split)).toNat = low.bytes.length := by
    rw [UInt32.toNat_ofNat_of_lt' (by rw [UInt32.size]; omega)]
    exact List.length_drop.symm
  have lowBytes : ((recordBytes 0 field payload ++ rest).drop (4 + split)).take low.bytes.length =
      low.bytes := by
    rw [← List.drop_drop, record_payload, List.drop_append_of_le_length (by omega),
      List.take_left' rfl]
  have outcome := add_block_cases heap hexFile nodes 0
    ((recordBytes 0 field payload ++ rest).drop (4 + split)) (UInt32.ofNat (payload.length - split))
    owns reading.generous (by
      have size := congrArg List.length lowBytes
      rw [List.length_take] at size
      rw [counted]
      omega)
  rw [Outcome, counted, lowBytes] at outcome
  rcases outcome with ⟨_, overflow⟩ | ⟨accepted, changed, relinked, after, result, added⟩
  · have top := (overflow_full low _ reading.tidy below overflow).1
    rw [lowSegment, Segment.stop, List.length_drop] at top
    simp only at top
    omega
  · obtain ⟨rfl, tidy, stillBelow, mapped⟩ :=
      added_fresh heap changed hexFile relinked nodes after low
      accepted added reading.tidy below lowApart
    obtain ⟨sameTotal, _, _, sameEnd, sameStart⟩ := same_header_fields _ _ added.header
    refine ⟨changed, relinked, values after, result, ?_, ⟨sameStart, sameEnd⟩, sameTotal, ?_,
      mapped⟩
    · exact reading.continued added.owns added.generous tidy added.header _
    · apply stillBelow
      rw [lowSegment, Segment.stop, List.length_drop]
      simp only
      omega

/-- The part of a crossing record up to 2^32 is stored where nothing is, or the list is full in
front of it. -/
theorem high_part_stored (reading : Reading heap hexFile base blocks) (below : Below blocks)
    (count : payload.length ≤ 251) (begins : base.toNat + field.toNat < 2 ^ 32) (split : Nat)
    (distance : 2 ^ 32 - (base.toNat + field.toNat) = split) (beyond : split < payload.length)
    (unused : ∀ position, base.toNat + field.toNat ≤ position → position < 2 ^ 32 →
      image (segments blocks) position = none) :
    let data := recordBytes 0 field payload ++ rest
    (storePayload heap hexFile data (UInt8.ofNat split) = .error .outOfBounds ∧
      ∀ position < base.toNat + field.toNat, image (segments blocks) position ≠ none) ∨
    ∃ changed relinked after,
      storePayload heap hexFile data (UInt8.ofNat split) = .ok (true, changed, relinked) ∧
      Reading changed relinked base after ∧ SameMarks hexFile relinked ∧
      ∀ position, image (segments after) position =
        overlay ⟨base.toNat + field.toNat, payload.take split⟩ (image (segments blocks))
        position := by
  let high : Range :=
    ⟨dataAddress hexFile field, payload.take split, by rw [List.length_take]; omega,
    by rw [List.length_take]; omega, by
      rw [data_address, reading.base, List.length_take]
      omega⟩
  have highSegment : high.segment = ⟨base.toNat + field.toNat, payload.take split⟩ := by
    simp only [high, Range.segment, data_address, reading.base]
    rw [Nat.mod_eq_of_lt begins]
  have highApart : ∀ block ∈ blocks, block.segment.Apart high.segment := by
    apply (apart_iff_range blocks high reading.tidy.nonempty).mpr
    intro position begun inside
    rw [highSegment] at begun inside
    rw [Segment.stop, List.length_take] at inside
    simp only at begun inside
    exact unused position begun (by omega)
  rcases store_fresh heap hexFile base blocks field payload rest split reading below high rfl rfl
    (by omega) count highApart with
    ⟨fault, -, full⟩ | ⟨changed, relinked, after, result, following, marks, -, overlaid⟩
  · rw [highSegment] at full
    exact Or.inl ⟨fault, full⟩
  · rw [highSegment] at overlaid
    exact Or.inr ⟨changed, relinked, after, result, following, marks, overlaid⟩

/-- A record in two pieces: the part at address 0 first, then the part that ends at
2^32. The second part is apart from the first, which ends far below it. -/
theorem crossing_step (reading : Reading heap hexFile base blocks) (below : Below blocks)
    (count : payload.length ≤ 251)
    (unused : ∀ entry ∈ placed base field payload, image (segments blocks) entry.1 = none)
    (begins : base.toNat + field.toNat < 2 ^ 32)
    (crossing : 2 ^ 32 < base.toNat + field.toNat + payload.length) :
    DataOutcome hexFile base blocks field payload
      (processRecord heap hexFile (recordBytes 0 field payload ++ rest)) := by
  have enters := overlay_halves base field payload (image (segments blocks)) begins count crossing
  have process := process_crossing heap hexFile field payload rest reading.mode count
    (reading.base ▸ begins) (reading.base ▸ crossing)
  rw [reading.base] at process
  generalize distance : 2 ^ 32 - (base.toNat + field.toNat) = split at enters process
  have lowEntry : ∀ position, position < payload.length - split →
      ∃ entry ∈ placed base field payload, entry.1 = position := by
    intro position inside
    exact placed_covers base field payload (split + position) position (by omega) (by omega)
  have highEntry : ∀ position, base.toNat + field.toNat ≤ position → position < 2 ^ 32 →
      ∃ entry ∈ placed base field payload, entry.1 = position := by
    intro position begun inside
    exact placed_covers base field payload (position - (base.toNat + field.toNat)) position
      (by omega) (by omega)
  obtain ⟨changed, relinked, middle, result, between, lowMarks, sameTotal, middleBelow, mapped⟩ :=
    low_part_added heap hexFile base blocks field payload rest reading below count split (by omega)
      (fun position inside => by
        obtain ⟨named, member, rfl⟩ := lowEntry position inside
        exact unused named member)
  have lowSilent : ∀ position, base.toNat + field.toNat ≤ position →
      (⟨0, payload.drop split⟩ : Segment u8).at? position = none := by
    intro position begun
    refine (Segment.at_none_iff _ _).mpr (Or.inr ?_)
    rw [Segment.stop, List.length_drop]
    simp only
    omega
  have stored := high_part_stored changed _ base middle field payload rest between middleBelow count
    begins split distance (by omega) (fun position begun inside => by
      obtain ⟨named, member, rfl⟩ := highEntry position begun inside
      rw [mapped, overlay, lowSilent _ begun]
      exact unused named member)
  rw [process, result]
  simp only [ok_bind, if_true, sameTotal]
  rcases stored with ⟨fault, full⟩ | ⟨others, following, final, second, ending, marks, overlaid⟩
  · refine Or.inl ⟨fault, ?_⟩
    intro position bound silent
    by_cases early : position < base.toNat + field.toNat
    · have covered := full position early
      rw [mapped, overlay, silent, Option.or_none, ne_eq, Segment.at_none_iff, not_or] at covered
      have inside := covered.2
      simp only [Segment.stop, List.length_drop] at inside
      exact lowEntry position (by omega)
    · exact highEntry position (by omega) bound
  · refine Or.inr ⟨others, following, final, second, ending, ?_, ?_, ?_⟩
    · exact lowMarks.trans marks
    · rw [← funext mapped, ← funext overlaid] at enters
      exact enters
    · intro short
      obtain ⟨entry, member, top⟩ := highEntry (2 ^ 32 - 1) (by omega) (by omega)
      exact absurd top (short entry member)

/-- A data record below the top does what the outcome says. It is stored in one range or in
two. -/
theorem data_outcome (reading : Reading heap hexFile base blocks) (below : Below blocks)
    (positive : 1 ≤ payload.length) (count : payload.length ≤ 251)
    (unused : ∀ entry ∈ placed base field payload, image (segments blocks) entry.1 = none) :
    DataOutcome hexFile base blocks field payload
      (processRecord heap hexFile (recordBytes 0 field payload ++ rest)) := by
  by_cases crossing : base.toNat + field.toNat < 2 ^ 32 ∧
      2 ^ 32 < base.toNat + field.toNat + payload.length
  · exact crossing_step heap hexFile base blocks field payload rest reading below count unused
      crossing.1 crossing.2
  · exact whole_step heap hexFile base blocks field payload rest reading below positive count unused
      crossing

/-- A line that spells a data record does what its outcome says. The array of the parser makes no
difference. -/
theorem data_step (line : List u8) (data : LocalBuffer) (reading : Reading heap hexFile base blocks)
    (below : Below blocks) (positive : 1 ≤ payload.length) (count : payload.length ≤ 251)
    (unused : ∀ entry ∈ placed base field payload, image (segments blocks) entry.1 = none)
    (spells : SpellsLine (HexRecord.data field payload).bytes line) :
    DataOutcome hexFile base blocks field payload (parseOneLine heap hexFile line data) := by
  obtain ⟨rest, parsed⟩ :=
    (parse_record_line heap hexFile line 0 field payload data spells (by omega)).1 count
  rw [parsed]
  exact data_outcome heap hexFile base blocks field payload rest reading below positive count unused

end DataStep

/-! ## Runs of records -/

/-- The lines spell the records, one each. What the array held for each line makes no difference
then. -/
def SpellRecords (records : List HexRecord) (lines : List (List u8 × LocalBuffer)) : Prop :=
  List.Forall₂ (fun record line => SpellsLine record.bytes line.1) records lines

/-- A data record that names the last address is not followed by another one. A block at the last
address ends at zero for the code. -/
def TopLast : u32 → List HexRecord → Prop
  | _, [] => True
  | base, .data field payload :: rest =>
    ((∃ entry ∈ placed base field payload, entry.1 = 2 ^ 32 - 1) → named base rest = []) ∧
      TopLast base rest
  | _, .base high low :: rest => TopLast (upperWord high low) rest

/-- Entering disjoint entries one list after the other enters both. This is how the entries of a
run are collected, record by record. -/
theorem enters_append (early late : List (Nat × u8)) (held middle after : Nat → Option u8)
    (distinct : ((early ++ late).map Prod.fst).Nodup) (first : Enters early held middle)
    (second : Enters late middle after) : Enters (early ++ late) held after := by
  rw [List.map_append, List.nodup_append] at distinct
  obtain ⟨_, _, disjoint⟩ := distinct
  constructor
  · intro entry member
    rcases List.mem_append.mp member with inEarly | inLate
    · have untouched : ∀ other ∈ late, other.1 ≠ entry.1 := fun other belongs same =>
        disjoint entry.1 (List.mem_map.mpr ⟨entry, inEarly, rfl⟩) other.1
          (List.mem_map.mpr ⟨other, belongs, rfl⟩) same.symm
      rw [second.2 entry.1 untouched]
      exact first.1 entry inEarly
    · exact second.1 entry inLate
  · intro position outside
    rw [second.2 position (fun entry member => outside entry (by simp [member])),
      first.2 position (fun entry member => outside entry (by simp [member]))]

/-- Entries that are unused before another list is entered are unused after it, if the
two lists name different addresses. -/
theorem enters_unused (early late : List (Nat × u8)) (held middle : Nat → Option u8)
    (distinct : ((early ++ late).map Prod.fst).Nodup) (first : Enters early held middle)
    (unused : ∀ entry ∈ late, held entry.1 = none) : ∀ entry ∈ late, middle entry.1 = none := by
  rw [List.map_append, List.nodup_append] at distinct
  obtain ⟨_, _, disjoint⟩ := distinct
  intro entry member
  rw [first.2 entry.1]
  · exact unused entry member
  · intro other belongs same
    exact disjoint other.1 (List.mem_map.mpr ⟨other, belongs, rfl⟩) entry.1
      (List.mem_map.mpr ⟨entry, member, rfl⟩) same

/-- Entries that fill the space behind others fill it together with them. It is enough that the
later ones fill what is left. -/
theorem fills_append (early late : List (Nat × u8)) (held middle : Nat → Option u8)
    (first : Enters early held middle) (fills : FillsSpace late middle) :
    FillsSpace (early ++ late) held := by
  intro position bound silent
  by_cases entered : ∃ entry ∈ early, entry.1 = position
  · obtain ⟨entry, member, same⟩ := entered
    exact ⟨entry, by simp [member], same⟩
  · have still : middle position = none := by
      rw [first.2 position fun entry member same => entered ⟨entry, member, same⟩]
      exact silent
    obtain ⟨entry, member, same⟩ := fills position bound still
    exact ⟨entry, by simp [member], same⟩

/-- A run of records with distinct addresses, the last address in the last data record,
is accepted throughout and enters the named bytes, unless it fills the whole space and
faults. The induction follows the records; after a record at the top only base changes
are left. -/
theorem records_run (heap : Heap Block) (hexFile : IntelHexFormat) (base : u32)
    (blocks : List Block) (records : List HexRecord) (lines : List (List u8 × LocalBuffer))
    (reading : Reading heap hexFile base blocks) (below : Below blocks ∨ named base records = [])
    (countable : ∀ record ∈ records, record.Countable)
    (distinct : ((named base records).map Prod.fst).Nodup)
    (unused : ∀ entry ∈ named base records, image (segments blocks) entry.1 = none)
    (topLast : TopLast base records) (spelled : SpellRecords records lines) :
    (parseLines heap hexFile lines = .error .outOfBounds ∧
      FillsSpace (named base records) (image (segments blocks))) ∨
    ∃ changed relinked after lastBase, parseLines heap hexFile lines =
      .ok (true, changed, relinked) ∧
      Reading changed relinked lastBase after ∧ SameMarks hexFile relinked ∧
      Enters (named base records) (image (segments blocks)) (image (segments after)) := by
  induction spelled generalizing heap hexFile base blocks with
  | nil =>
    exact Or.inr ⟨heap, hexFile, blocks, base, rfl, reading,
      ⟨rfl, rfl⟩, by simp [named], fun _ _ => rfl⟩
  | @cons record line records lines spells _ inductionHypothesis =>
    have restCountable : ∀ other ∈ records, other.Countable :=
      fun other member => countable other (by simp [member])
    cases record with
    | base high low =>
      simp only [named, TopLast] at below distinct unused topLast ⊢
      obtain ⟨middle, parsed, following, marks⟩ :=
        base_step heap hexFile base blocks high low line.1 line.2 reading spells
      rcases inductionHypothesis heap middle (upperWord high low) blocks following below
        restCountable distinct unused topLast with
        ⟨fault, fills⟩ | ⟨changed, relinked, after, lastBase, result, final, more, enters⟩
      · exact Or.inl ⟨by simp [parseLines, parsed, fault], fills⟩
      · exact Or.inr
          ⟨changed, relinked, after, lastBase, by simp [parseLines, parsed, result], final,
          marks.trans more, enters⟩
    | data field payload =>
      obtain ⟨positive, count⟩ := countable (.data field payload) (by simp)
      simp only [named, TopLast] at below distinct unused topLast ⊢
      obtain ⟨atTop, restTop⟩ := topLast
      have stillBelow : Below blocks := by
        rcases below with under | nothing
        · exact under
        · have isEmpty : placed base field payload = [] := (List.append_eq_nil_iff.mp nothing).1
          have size : (placed base field payload).length = payload.length := List.length_mapIdx
          rw [isEmpty, List.length_nil] at size
          omega
      rcases data_step heap hexFile base blocks field payload line.1 line.2 reading stillBelow
        positive count (fun entry member => unused entry (by simp [member])) spells with
        ⟨fault, fills⟩ | ⟨middle, between, stored, parsed, following, marks, first, short⟩
      · refine Or.inl ⟨by simp [parseLines, fault], ?_⟩
        intro position bound silent
        obtain ⟨entry, member, same⟩ := fills position bound silent
        exact ⟨entry, by simp [member], same⟩
      · have restBelow : Below stored ∨ named base records = [] := by
          by_cases top : ∃ entry ∈ placed base field payload, entry.1 = 2 ^ 32 - 1
          · exact Or.inr (atTop top)
          · exact Or.inl (short fun entry member same => top ⟨entry, member, same⟩)
        have restDistinct : ((named base records).map Prod.fst).Nodup := by
          rw [List.map_append] at distinct
          exact (List.nodup_append.mp distinct).2.1
        rcases inductionHypothesis middle between base stored following restBelow restCountable
          restDistinct (enters_unused _ _ _ _ distinct first fun entry member =>
            unused entry (by simp [member]))
          restTop with
          ⟨fault, fills⟩ | ⟨changed, relinked, after, lastBase, result, final, more, second⟩
        · exact Or.inl ⟨by simp [parseLines, parsed, fault], fills_append _ _ _ _ first fills⟩
        · exact Or.inr
            ⟨changed, relinked, after, lastBase, by simp [parseLines, parsed, result], final,
            marks.trans more, enters_append _ _ _ _ _ distinct first
              second⟩

/-- The blocks are in strictly ascending address order without reaching into each other
or past 2^32, and each named address holds its byte. -/
def Faithful (heap : Heap Block) (hexFile : IntelHexFormat) (entries : List (Nat × u8)) : Prop :=
  ∃ blocks, Holds heap hexFile blocks ∧
    blocks.Pairwise (fun early late => early.address < late.address) ∧ Ascending (segments blocks) ∧
    (∀ block ∈ blocks, block.segment.stop ≤ 2 ^ 32) ∧
    ∀ entry ∈ entries, image (segments blocks) entry.1 = some entry.2

/-- The addresses of a first part come first. Proof: by induction on the records, with the base
they lead to. -/
theorem named_append (base : u32) (front back : List HexRecord) :
    ∃ later, named base (front ++ back) = named base front ++ later := by
  induction front generalizing base with
  | nil => exact ⟨_, rfl⟩
  | cons record rest inductionHypothesis =>
    cases record with
    | base high low =>
      simpa only [List.cons_append, named] using inductionHypothesis (upperWord high low)
    | data field payload =>
      obtain ⟨later, same⟩ := inductionHypothesis base
      exact ⟨later, by simp [named, same]⟩

/-- A first part has its own last data record. So the condition may be used for every prefix of a
run. -/
theorem top_last_front (base : u32) (front back : List HexRecord)
    (topLast : TopLast base (front ++ back)) : TopLast base front := by
  induction front generalizing base with
  | nil => trivial
  | cons record rest inductionHypothesis =>
    cases record with
    | base high low =>
      simp only [List.cons_append, TopLast] at topLast ⊢
      exact inductionHypothesis (upperWord high low) topLast
    | data field payload =>
      simp only [List.cons_append, TopLast] at topLast ⊢
      obtain ⟨atTop, restTop⟩ := topLast
      refine ⟨fun top => ?_, inductionHypothesis base restTop⟩
      obtain ⟨later, same⟩ := named_append base rest back
      have nothing := atTop top
      rw [same] at nothing
      exact (List.append_eq_nil_iff.mp nothing).1

/-- In every run of records with distinct addresses in which no data record follows one that names
the last address of the space, each state reached through accepted records is faithful to the
records so far. Proof: a record enters the addresses it names as long as no block ends at the top
of the space, and behind the last address none is named. -/
theorem records_faithful (heap changed : Heap Block) (hexFile relinked : IntelHexFormat)
    (front back : List HexRecord) (lines : List (List u8 × LocalBuffer)) (generous : heap.Generous)
    (headNull : hexFile.blockHead = none) (tailNull : hexFile.blockTail = none)
    (mode : hexFile.fileMode = .linear) (countable : ∀ record ∈ front ++ back, record.Countable)
    (distinct : ((named hexFile.addressBase (front ++ back)).map Prod.fst).Nodup)
    (topLast : TopLast hexFile.addressBase (front ++ back)) (spelled : SpellRecords front lines)
    (returned : parseLines heap hexFile lines = .ok (true, changed, relinked)) :
    Faithful changed relinked (named hexFile.addressBase front) := by
  have reading : Reading heap hexFile hexFile.addressBase [] :=
    ⟨⟨[], owns_nothing heap hexFile headNull tailNull, rfl⟩, generous, tidy_nil, mode, rfl⟩
  have frontDistinct : ((named hexFile.addressBase front).map Prod.fst).Nodup := by
    obtain ⟨later, same⟩ := named_append hexFile.addressBase front back
    rw [same, List.map_append] at distinct
    exact (List.nodup_append.mp distinct).1
  rcases records_run heap hexFile hexFile.addressBase [] front lines reading
    (Or.inl (by simp [Below]))
    (fun record member => countable record (by simp [member])) frontDistinct (fun _ _ => rfl)
    (top_last_front _ front back topLast) spelled with
    ⟨fault, _⟩ | ⟨others, following, after, lastBase, result, final, _, enters⟩
  · rw [fault] at returned
    exact absurd returned (by simp)
  · rw [result] at returned
    obtain ⟨-, rfl, rfl⟩ : true = true ∧ others = changed ∧ following = relinked := by
      simpa using returned
    obtain ⟨blocks, holds, ordered, ascending⟩ :=
      tidy_orderly others following after final.holds final.tidy
    obtain rfl := holds_unique others following blocks after holds final.holds
    exact ⟨blocks, holds, ordered, ascending, final.tidy.within, enters.1⟩

/-- The upper-case lines of records, read with a zero array. They witness that every list of
records has lines which spell it. -/
def recordLines (records : List HexRecord) : List (List u8 × LocalBuffer) :=
  records.map fun record => (spelledLine record.bytes, .zero)

/-- The lines written for records spell those records, in order. So there are lines for any
records. -/
theorem record_lines_spelled (records : List HexRecord) :
    SpellRecords records (recordLines records) := by
  apply List.forall₂_map_right_iff.mpr
  exact List.forall₂_same.mpr fun record _ => spelled_line record.bytes

set_option maxRecDepth 10000 in
/-- A byte at the last address is faithful as the last record. Nothing is inserted behind it. -/
theorem last_address_faithful :
    let records := [.base 0xFF 0xFF, .data 0xFFFF [1]]
    ∃ changed relinked,
      parseLines ⟨[], fun _ => true⟩ .fresh (recordLines records) = .ok (true, changed, relinked) ∧
      Faithful changed relinked (named 0 records) := by
  refine ⟨_, _, rfl, records_faithful ⟨[], fun _ => true⟩ _ .fresh _
    [.base 0xFF 0xFF, .data 0xFFFF [1]] []
    _ (fun _ => rfl) rfl rfl rfl ?_ ?_ ?_ (record_lines_spelled _) rfl⟩
  · simp [HexRecord.Countable]
  · decide +kernel
  · simp [TopLast, named]

set_option maxRecDepth 10000 in
/-- A byte at the last address, then one at 0: both records are accepted, and the second
byte extends the first one's block past 2^32. -/
theorem wrapped_end_extended :
    let records := [.base 0xFF 0xFF, .data 0xFFFF [1], .base 0 0, .data 0 [2]]
    ((named 0 records).map Prod.fst).Nodup ∧ (∀ record ∈ records, record.Countable) ∧
    ∃ changed relinked,
      parseLines ⟨[], fun _ => true⟩ .fresh (recordLines records) = .ok (true, changed, relinked) ∧
      ¬ Faithful changed relinked (named 0 records) := by
  refine ⟨by decide +kernel, by simp [HexRecord.Countable], _, _, rfl, ?_⟩
  rintro ⟨blocks, ⟨nodes, owns, rfl⟩, _, _, within, _⟩
  have stored : nodes = [(0, ⟨0xFFFFFFFF, 2, [1, 2]⟩)] :=
    chain_unique _ _ _ _ owns.chain ⟨rfl, _, rfl, rfl⟩
  subst stored
  have bound := within ⟨0xFFFFFFFF, 2, [1, 2]⟩ (by simp)
  exact absurd bound (by decide)

end EffiLib.IntelHex
