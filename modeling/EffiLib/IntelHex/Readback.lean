import EffiLib.IntelHex.AddressSpace
import EffiLib.IntelHex.Splitting

/-!
# Reading back what was written

The writer caches the upper half of the address it announced last, the reader keeps
the base that was announced last. As long as the two agree, the printed lines spell
records that name exactly the cells of the written blocks, in ascending order. They
may disagree only in front of the first announcement, where the cache holds 0xFFFF and
the base is zero.
-/

namespace EffiLib.IntelHex

open Buffers LinkedHeap Segments

/-! ## The printed lines as records -/

/-- The two payload bytes of a linear address record make up the upper half again. The upper half
has 16 bits there. -/
theorem upper_word_bytes (upper : u32) :
    upperWord (upper >>> 8).toUInt8 upper.toUInt8 = upper <<< 16 := by
  have bound := upper.toNat_lt
  rw [upperWord, ← UInt32.toNat_inj]
  simp only [UInt32.toNat_add, UInt32.toNat_shiftLeft, UInt8.toNat_toUInt32, UInt32.toNat_toUInt8,
    UInt32.toNat_shiftRight, UInt32.reduceToNat, Nat.reduceMod, Nat.shiftLeft_eq,
    Nat.shiftRight_eq_div_pow]
  omega

/-- The upper half and the address field of a record make up its address again. The field has the
lower half. -/
theorem halves_address (addr : u32) :
    (addr >>> 16 <<< 16).toNat + addr.toUInt16.toNat = addr.toNat := by
  have bound := addr.toNat_lt
  simp only [UInt32.toNat_shiftLeft, UInt32.toNat_shiftRight, UInt32.toNat_toUInt16,
    UInt32.reduceToNat, Nat.reduceMod, Nat.shiftLeft_eq, Nat.shiftRight_eq_div_pow]
  omega

/-- A data record names the cells of its block from its position on. The base is the upper half of
the record's first address. -/
theorem piece_placed (limit : Nat) (block : Block) (position : Nat)
    (addr offset restLen dataLen : u32) (line : List u8)
    (piece : Piece limit block position addr offset restLen dataLen line)
    (writable : Writable block) :
    placed (addr >>> 16 <<< 16) addr.toUInt16 ((block.data.drop position).take dataLen.toNat) =
      (block.segment.cells.drop position).take dataLen.toNat := by
  have within := writable.within
  have address := piece.address
  have remaining := piece.remaining
  have inside := piece.inside
  have sized : block.data.length = block.length.toNat := writable.sized
  apply List.ext_getElem (by simp [placed])
  intro index left right
  simp only [placed, List.length_mapIdx, List.length_take, List.length_drop] at left
  simp only [placed, Segment.cells, List.getElem_mapIdx, List.getElem_take, List.getElem_drop,
    Block.segment_start, Block.segment_items, halves_address, Prod.mk.injEq, and_true]
  omega

/-- A data record is counted in one byte. The limit on the length leaves room for it. -/
theorem piece_countable (limit : Nat) (block : Block) (position : Nat)
    (addr offset restLen dataLen : u32) (line : List u8)
    (piece : Piece limit block position addr offset restLen dataLen line)
    (writable : Writable block) (narrow : limit ≤ 251) :
    (HexRecord.data addr.toUInt16 ((block.data.drop position).take dataLen.toNat)).Countable := by
  have positive := piece.positive
  have remaining := piece.remaining
  have inside := piece.inside
  have short := piece.short
  have sized : block.data.length = block.length.toNat := writable.sized
  rw [HexRecord.Countable, List.length_take, List.length_drop]
  omega

/-- A data record in front of others: its cells come in front of theirs. This is the step by which
the records of a file are collected. -/
theorem piece_prepended (limit : Nat) (narrow : limit ≤ 251) (block : Block) (position : Nat)
    (addr offset restLen dataLen : u32) (line : List u8)
    (piece : Piece limit block position addr offset restLen dataLen line)
    (writable : Writable block) (printed : List Printed) (others : List HexRecord)
    (lines : printed.map Printed.line = others.map fun record => spelledLine record.bytes)
    (countable : ∀ record ∈ others, record.Countable) (whole : List (Nat × u8))
    (cells : (block.segment.cells.drop position).take dataLen.toNat ++
      named (addr >>> 16 <<< 16) others = whole) :
    ∃ records : List HexRecord,
      (Printed.data addr offset restLen dataLen line :: printed).map Printed.line =
        records.map (fun record => spelledLine record.bytes) ∧
      (∀ record ∈ records, record.Countable) ∧ named (addr >>> 16 <<< 16) records = whole ∧
      ∃ payload later, records = .data addr.toUInt16 payload :: later := by
  refine ⟨.data addr.toUInt16 ((block.data.drop position).take dataLen.toNat) :: others, ?_, ?_,
    ?_, _, _, rfl⟩
  · rw [List.map_cons, List.map_cons, lines, Printed.line, piece.spells]
    rfl
  · simpa using ⟨piece_countable _ _ _ _ _ _ _ _ piece writable narrow, countable⟩
  · rw [named, piece_placed _ _ _ _ _ _ _ _ piece writable, cells]

/-- The lines of tiles are the lines of records that name the cells of the blocks. What
is printed for data first is a data record first. -/
theorem tiles_records (limit : Nat) (narrow : limit ≤ 251) (blocks : List Block) (position : Nat)
    (printed : List Printed) (tiles : Tiles limit blocks position printed) :
    ∀ ulba, Based ulba printed → (∀ block ∈ blocks, Writable block) →
      ∃ records : List HexRecord,
        printed.map Printed.line = records.map (fun record => spelledLine record.bytes) ∧
        (∀ record ∈ records, record.Countable) ∧
        named (ulba <<< 16) records = (cells (segments blocks)).drop position ∧
        ∀ addr offset restLen dataLen line rest,
          printed = .data addr offset restLen dataLen line :: rest →
          ∃ payload later, records = .data addr.toUInt16 payload :: later := by
  induction tiles with
  | done => exact fun ulba _ _ => ⟨[], rfl, by simp, rfl, by simp⟩
  | control line _ inductionHypothesis =>
    intro ulba based writable
    cases based with
    | linear _ upper rest =>
      obtain ⟨records, lines, countable, names, _⟩ := inductionHypothesis upper rest writable
      refine ⟨.base (upper >>> 8).toUInt8 upper.toUInt8 :: records, ?_, ?_, ?_, by simp⟩
      · rw [List.map_cons, List.map_cons, lines]
        rfl
      · simpa [HexRecord.Countable] using countable
      · rw [named, upper_word_bytes, names]
  | @inner block blocks position printed addr offset restLen dataLen line piece unfinished _
    inductionHypothesis =>
    intro ulba based writable
    have here := writable block (by simp)
    have remaining := piece.remaining
    cases based with
    | data rest =>
      obtain ⟨others, lines, countable, names, _⟩ := inductionHypothesis _ rest writable
      have fits : position + dataLen.toNat ≤ block.segment.cells.length := by
        rw [segment_cells_length, Block.segment_items, here.sized]
        omega
      obtain ⟨records, spelled, counted, named, first⟩ := piece_prepended limit narrow block
        position addr offset restLen dataLen line piece here printed others lines countable
        ((cells (segments (block :: blocks))).drop position) (by
          rw [names, segments_cons, cells_cons, List.drop_append_of_le_length fits,
            List.drop_append_of_le_length (Nat.le_of_add_right_le fits), ← List.append_assoc,
            ← List.drop_drop, List.take_append_drop])
      refine ⟨records, spelled, counted, named, ?_⟩
      rintro _ _ _ _ _ _ ⟨⟩
      exact first
  | @last block blocks position printed addr offset restLen dataLen line piece finished _
    inductionHypothesis =>
    intro ulba based writable
    have here := writable block (by simp)
    have remaining := piece.remaining
    cases based with
    | data rest =>
      obtain ⟨others, lines, countable, names, _⟩ :=
        inductionHypothesis _ rest fun other member => writable other (by simp [member])
      have whole : (block.segment.cells.drop position).length ≤ dataLen.toNat := by
        rw [List.length_drop, segment_cells_length, Block.segment_items, here.sized, finished]
        omega
      have inside : position ≤ block.segment.cells.length := by
        rw [segment_cells_length, Block.segment_items, here.sized]
        omega
      obtain ⟨records, spelled, counted, named, first⟩ := piece_prepended limit narrow block
        position addr offset restLen dataLen line piece here printed others lines countable
        ((cells (segments (block :: blocks))).drop position) (by
          rw [names, segments_cons, cells_cons, List.drop_append_of_le_length inside,
            List.take_of_length_le whole, List.drop_zero])
      refine ⟨records, spelled, counted, named, ?_⟩
      rintro _ _ _ _ _ _ ⟨⟩
      exact first

/-- Lines with the same texts as those of records spell the records, whatever the
arrays hold that they are read into. -/
theorem spelled_records (records : List HexRecord) (lines : List (List u8 × LocalBuffer))
    (same : lines.map Prod.fst = records.map (fun record => spelledLine record.bytes)) :
    SpellRecords records lines := by
  have texts : List.Forall₂ (fun record line => SpellsLine record.bytes line) records
      (lines.map Prod.fst) := by
    rw [same]
    exact List.forall₂_map_right_iff.mpr (List.forall₂_same.mpr fun record _ =>
      spelled_line record.bytes)
  exact List.forall₂_map_right_iff.mp texts

/-- Every named address lies in the address space. It is a sum modulo 2^32. -/
theorem named_bound (base : u32) (records : List HexRecord) (entry : Nat × u8)
    (member : entry ∈ named base records) : entry.1 < 2 ^ 32 := by
  induction records generalizing base with
  | nil => simp [named] at member
  | cons record rest inductionHypothesis =>
    cases record with
    | base high low =>
      simp only [named] at member
      exact inductionHypothesis (upperWord high low) member
    | data field payload =>
      simp only [named] at member
      rcases List.mem_append.mp member with here | later
      · obtain ⟨offset, _, rfl⟩ := (placed_mem _ _ _ _).mp here
        exact Nat.mod_lt _ (by omega)
      · exact inductionHypothesis base later

/-- When addresses are named in ascending order, the last one of the space comes last. The reader
stores it without trouble, as nothing is inserted behind it. -/
theorem ascending_top_last (base : u32) (records : List HexRecord)
    (ordered : ((named base records).map Prod.fst).Pairwise (· < ·)) : TopLast base records := by
  induction records generalizing base with
  | nil => trivial
  | cons record rest inductionHypothesis =>
    cases record with
    | base high low =>
      simp only [named, TopLast] at ordered ⊢
      exact inductionHypothesis (upperWord high low) ordered
    | data field payload =>
      simp only [named, TopLast, List.map_append, List.pairwise_append] at ordered ⊢
      obtain ⟨_, later, across⟩ := ordered
      refine ⟨?_, inductionHypothesis base later⟩
      rintro ⟨entry, member, top⟩
      refine List.eq_nil_iff_forall_not_mem.mpr fun other belongs => ?_
      have above := across entry.1 (List.mem_map.mpr ⟨entry, member, rfl⟩) other.1
        (List.mem_map.mpr ⟨other, belongs, rfl⟩)
      have bound := named_bound base rest other belongs
      omega

/-! ## The lines behind the data -/

/-- The four payload bytes of a start record make up the address again. The highest byte comes
first. -/
theorem start_word (address : u32) (rest : List u8) :
    bigEndianWord (recordBytes 5 0 [(address >>> 24).toUInt8, (address >>> 16).toUInt8,
      (address >>> 8).toUInt8, address.toUInt8] ++ rest) = address := by
  have bytes : bigEndianWord (recordBytes 5 0 [(address >>> 24).toUInt8, (address >>> 16).toUInt8,
      (address >>> 8).toUInt8, address.toUInt8] ++ rest) =
      ((address >>> 24).toUInt8.toUInt32 <<< 24) + ((address >>> 16).toUInt8.toUInt32 <<< 16) +
        ((address >>> 8).toUInt8.toUInt32 <<< 8) + address.toUInt8.toUInt32 := rfl
  have bound := address.toNat_lt
  rw [bytes, ← UInt32.toNat_inj]
  simp only [UInt32.toNat_add, UInt32.toNat_shiftLeft, UInt8.toNat_toUInt32, UInt32.toNat_toUInt8,
    UInt32.toNat_shiftRight, UInt32.reduceToNat, Nat.reduceMod, Nat.shiftLeft_eq,
    Nat.shiftRight_eq_div_pow]
  omega

/-- A start record sets the start address and keeps everything else. The list is not touched. -/
theorem start_step (heap : Heap Block) (hexFile : IntelHexFormat) (address : u32) (line : List u8)
    (data : LocalBuffer)
    (spells : SpellsLine (recordBytes 5 0 [(address >>> 24).toUInt8, (address >>> 16).toUInt8,
      (address >>> 8).toUInt8, address.toUInt8]) line) :
    parseOneLine heap hexFile line data =
      .ok (true, heap, { hexFile with startLinearAddress := address }) := by
  obtain ⟨rest, parsed⟩ := (parse_record_line heap hexFile line 5 0 _ data spells (by simp)).1
    (by simp)
  rw [parsed]
  simp only [processRecord, record_kind, controlRecord, record_count, record_field, start_word]
  rfl

/-- The end-of-file record marks the end and keeps everything else. The list is not touched. -/
theorem end_of_file_step (heap : Heap Block) (hexFile : IntelHexFormat) (line : List u8)
    (data : LocalBuffer) (spells : SpellsLine (recordBytes 1 0 []) line) :
    parseOneLine heap hexFile line data = .ok (true, heap, { hexFile with endOfFile := true }) := by
  obtain ⟨rest, parsed⟩ := (parse_record_line heap hexFile line 1 0 _ data spells (by simp)).1
    (by simp)
  rw [parsed]
  simp only [processRecord, record_kind, controlRecord, record_count, record_field]
  rfl

/-- What is left of a start address behind the trailer, which leaves out all ones. A reader that
starts fresh has zero there. -/
def startRead (written held : u32) : u32 := if written = 0xFFFFFFFF then held else written

/-- The trailer is accepted; it sets the start address and marks the end of the file. It has one
line or two. -/
theorem trailer_read (heap : Heap Block) (hexFile ihf : IntelHexFormat)
    (lines : List (List u8 × LocalBuffer))
    (same : lines.map Prod.fst = (trailer ihf).map Printed.line) :
    parseLines heap hexFile lines = .ok (true, heap,
      { hexFile with
        startLinearAddress := startRead ihf.startLinearAddress hexFile.startLinearAddress
        endOfFile := true }) := by
  by_cases written : ihf.startLinearAddress = 0xFFFFFFFF
  · rw [trailer, if_neg (not_not.mpr written), List.nil_append, List.map_singleton] at same
    obtain ⟨⟨line, data⟩, rfl, rfl⟩ := List.map_eq_singleton_iff.mp same
    have read := end_of_file_step heap hexFile _ data (spelled_line _)
    simp only [parseLines, Printed.line, read, ok_bind, if_true, startRead, if_pos written]
  · rw [trailer, if_pos written] at same
    obtain ⟨⟨first, firstData⟩, others, rfl, rfl, last⟩ := List.map_eq_cons_iff.mp same
    obtain ⟨⟨line, lastData⟩, rfl, rfl⟩ := List.map_eq_singleton_iff.mp last
    have start := start_step heap hexFile ihf.startLinearAddress _ firstData (spelled_line _)
    have ending := end_of_file_step heap { hexFile with startLinearAddress :=
      ihf.startLinearAddress } _ lastData (spelled_line _)
    simp only [parseLines, Printed.line, start, ending, ok_bind, if_true, startRead, if_neg written]

/-! ## The writer returns one answer -/

/-- More fuel does not change what the loop prints. A loop that ended has ended for good. -/
theorem write_loop_fuel (heap : Heap Block) (bufSize : Nat) (maxLen : u32) (fuel extra : Nat)
    (writer : Writer) (printed : List Printed) (str : List u8)
    (returned : writeLoop heap bufSize maxLen fuel writer = .ok (printed, str)) :
    writeLoop heap bufSize maxLen (fuel + extra) writer = .ok (printed, str) := by
  induction fuel generalizing writer printed str with
  | zero => simp [writeLoop] at returned
  | succ fuel inductionHypothesis =>
    rw [show fuel + 1 + extra = fuel + extra + 1 by omega]
    by_cases done : writer.current = none
    · simpa [writeLoop, done] using returned
    · simp only [writeLoop, done, if_false] at returned ⊢
      obtain ⟨⟨now, after⟩, stepped, returned⟩ := (bind_ok_iff _ _ _).mp returned
      obtain ⟨⟨later, final⟩, looped, returned⟩ := (bind_ok_iff _ _ _).mp returned
      rw [stepped, ok_bind]
      simp only [inductionHypothesis after later final looped, ok_bind]
      exact returned

/-- The first thing printed is a control record exactly when the announcement was needed. The
first pass decides it. -/
theorem loop_opening (heap : Heap Block) (bufSize : Nat) (maxLen : u32) (fuel : Nat)
    (writer : Writer) (pointer : Nat) (node : Node Block) (printed : List Printed) (str : List u8)
    (current : writer.current = some pointer) (found : heap.stored pointer = some node)
    (returned : writeLoop heap bufSize maxLen fuel writer = .ok (printed, str)) :
    if needsLinear writer.addr writer.ulba then ∃ line rest, printed = .control line :: rest
    else ∃ offset restLen dataLen line rest, printed = .data writer.addr offset restLen dataLen
      line :: rest := by
  cases fuel with
  | zero => simp [writeLoop] at returned
  | succ fuel =>
    simp only [writeLoop, current, reduceCtorEq, if_false] at returned
    obtain ⟨⟨now, after⟩, stepped, returned⟩ := (bind_ok_iff _ _ _).mp returned
    obtain ⟨⟨later, final⟩, _, returned⟩ := (bind_ok_iff _ _ _).mp returned
    obtain ⟨rfl, rfl⟩ : now ++ later = printed ∧ final = str := by simpa using returned
    simp only [writeStep, current, heap.read_stored pointer _ found, ok_bind] at stepped
    obtain ⟨⟨first, ulba, linear⟩, announced, stepped⟩ := (bind_ok_iff _ _ _).mp stepped
    obtain ⟨⟨buf, bufLen⟩, _, stepped⟩ := (bind_ok_iff _ _ _).mp stepped
    obtain ⟨⟨text, line⟩, _, stepped⟩ := (bind_ok_iff _ _ _).mp stepped
    obtain ⟨following, _, stepped⟩ := (bind_ok_iff _ _ _).mp stepped
    obtain ⟨rfl, -⟩ : linear ++ [_] = now ∧ following = after := by simpa using stepped
    by_cases needed : needsLinear writer.addr writer.ulba = true
    · simp only [announce, needed, if_true] at announced ⊢
      obtain ⟨buf, _, announced⟩ := (bind_ok_iff _ _ _).mp announced
      obtain ⟨⟨text, line⟩, _, announced⟩ := (bind_ok_iff _ _ _).mp announced
      obtain ⟨-, -, rfl⟩ :
          text = first ∧ writer.addr >>> 16 = ulba ∧ [Printed.control line] = linear := by
        simpa using announced
      exact ⟨_, _, rfl⟩
    · rw [announce, if_neg needed] at announced
      obtain ⟨-, -, rfl⟩ :
          writer.str = first ∧ writer.ulba = ulba ∧ [] = linear := by
        simpa using announced
      rw [if_neg needed]
      exact ⟨_, _, _, _, _, rfl⟩

end EffiLib.IntelHex
