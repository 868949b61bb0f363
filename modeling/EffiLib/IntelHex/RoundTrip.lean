import EffiLib.IntelHex.Readback

/-!
# Writing a file and reading it again

The lines the writer prints for a tidy list are read back to the same address map,
with two exceptions. A first record in the last page is not announced unless it lies
close to the page end, because the cache starts as 0xFFFF; the reader then puts it in
the first page. And a list that fills the whole address space comes back as a single
block, whose length does not fit a word.

A position once stored stays stored whatever records follow, so the misplaced first
record cannot be made good later.
-/

namespace EffiLib.IntelHex

open Buffers LinkedHeap Segments

/-! ## Stored positions stay stored -/

/-- The state of a reader in linear mode, without any order of the blocks. It is enough for what
is never taken back. -/
structure Loaded (heap : Heap Block) (hexFile : IntelHexFormat) (blocks : List Block) : Prop where
  holds : Holds heap hexFile blocks
  generous : heap.Generous
  mode : hexFile.fileMode = .linear

/-- Whatever position has an item before has one after. The item may be another one, if an
inserted block lies in front. -/
def Keeps (before after : List Block) : Prop :=
  ∀ position, image (segments before) position ≠ none → image (segments after) position ≠ none

/-- Each route leaves every block or extends it in place. No route takes a block out or makes it
shorter. -/
theorem route_keeps (address : u32) (bytes : List u8) (blocks after : List Block) (accepted : Bool)
    (route : Route address bytes blocks accepted after) : Keeps blocks after := by
  have covers : (∀ block ∈ blocks, block ∈ after ∨ block.extend bytes ∈ after) →
      Keeps blocks after := by
    intro found position stored silent
    refine stored ((image_none_iff _ _).mpr ?_)
    intro segment member
    obtain ⟨block, belongs, rfl⟩ := List.mem_map.mp member
    rcases found block belongs with old | extended
    · exact (image_none_iff _ _).mp silent block.segment (List.mem_map.mpr ⟨block, old, rfl⟩)
    · have outside := (image_none_iff _ _).mp silent (block.extend bytes).segment
        (List.mem_map.mpr ⟨_, extended, rfl⟩)
      simp only [extend_segment, Segment.stop, List.length_append, Block.segment_start,
        Block.segment_items] at outside ⊢
      omega
  apply covers
  cases route <;> grind

/-- A returning call keeps what is stored. This holds for refused calls as well. -/
theorem add_keeps (heap changed : Heap Block) (hexFile relinked : IntelHexFormat)
    (blocks : List Block) (address : u32) (data : List u8) (dataLen : u32) (accepted : Bool)
    (loaded : Loaded heap hexFile blocks) (enough : dataLen.toNat ≤ data.length)
    (returned : addBlock heap hexFile address data dataLen = .ok (accepted, changed, relinked)) :
    ∃ after, Loaded changed relinked after ∧ Keeps blocks after ∧ SameHeader hexFile relinked := by
  obtain ⟨⟨nodes, owns, rfl⟩, generous, mode⟩ := loaded
  rcases add_block_cases heap hexFile nodes address data dataLen owns generous enough with
    ⟨fault, _⟩ | ⟨taken, others, following, after, result, added⟩
  · rw [fault] at returned
    exact absurd returned (by simp)
  · rw [result] at returned
    obtain ⟨rfl, rfl, rfl⟩ : taken = accepted ∧ others = changed ∧ following = relinked := by
      simpa using returned
    have sameMode := (same_header_fields _ _ added.header).2.2.1
    exact ⟨values after, ⟨⟨after, added.owns, rfl⟩, added.generous, sameMode.trans mode⟩,
      route_keeps _ _ _ _ _ added.route, added.header⟩

/-- Changing the total length only does not touch the list. The invariant is about the list and
the heap. -/
theorem Loaded.counted {heap : Heap Block} {hexFile : IntelHexFormat} {blocks : List Block}
    (loaded : Loaded heap hexFile blocks) (total : u32) :
    Loaded heap { hexFile with totalLength := total } blocks := by
  obtain ⟨⟨nodes, owns, same⟩, generous, mode⟩ := loaded
  exact ⟨⟨nodes, owns_congr heap hexFile _ nodes owns rfl rfl, same⟩, generous, mode⟩

/-- Storing a payload keeps what is stored. Counting the bytes does not touch the blocks. -/
theorem store_keeps (heap changed : Heap Block) (hexFile relinked : IntelHexFormat)
    (blocks : List Block) (data : List u8) (count : u8) (accepted : Bool)
    (loaded : Loaded heap hexFile blocks) (enough : count.toNat ≤ (data.drop 4).length)
    (returned : storePayload heap hexFile data count = .ok (accepted, changed, relinked)) :
    ∃ after, Loaded changed relinked after ∧ Keeps blocks after := by
  rw [storePayload] at returned
  obtain ⟨⟨taken, others, following⟩, result, returned⟩ := (bind_ok_iff _ _ _).mp returned
  obtain ⟨after, middle, keeps, _⟩ :=
    add_keeps heap others hexFile following blocks _ _ _ taken loaded
    (by rw [UInt8.toNat_toUInt32]; exact enough) result
  cases taken with
  | false =>
    obtain ⟨-, rfl, rfl⟩ : false = accepted ∧ others = changed ∧ following = relinked := by
      simpa using returned
    exact ⟨after, middle, keeps⟩
  | true =>
    obtain ⟨-, rfl, rfl⟩ : true = accepted ∧ others = changed ∧
        { following with totalLength := following.totalLength + count.toUInt32 } = relinked := by
      simpa using returned
    exact ⟨after, middle.counted _, keeps⟩

/-- Every record keeps what is stored. A control record keeps all blocks. -/
theorem record_keeps (heap changed : Heap Block) (hexFile relinked : IntelHexFormat)
    (blocks : List Block) (record : HexRecord) (line : List u8) (data : LocalBuffer)
    (accepted : Bool) (loaded : Loaded heap hexFile blocks) (countable : record.Countable)
    (spells : SpellsLine record.bytes line)
    (returned : parseOneLine heap hexFile line data = .ok (accepted, changed, relinked)) :
    ∃ after, Loaded changed relinked after ∧ Keeps blocks after := by
  cases record with
  | base high low =>
    rw [base_parsed heap hexFile high low line data spells] at returned
    obtain ⟨-, rfl, rfl⟩ : true = accepted ∧ heap = changed ∧
        { hexFile with addressBase := upperWord high low, fileMode := .linear } = relinked := by
      simpa using returned
    obtain ⟨⟨nodes, owns, same⟩, generous, mode⟩ := loaded
    exact ⟨blocks, ⟨⟨nodes, owns_congr heap hexFile _ nodes owns rfl rfl, same⟩, generous, rfl⟩,
      fun _ stored => stored⟩
  | data field payload =>
    obtain ⟨positive, count⟩ := countable
    obtain ⟨rest, parsed⟩ :=
      (parse_record_line heap hexFile line 0 field payload data spells (by omega)).1 count
    have room := record_payload 0 field payload rest
    rw [parsed] at returned
    by_cases crossing : hexFile.addressBase.toNat + field.toNat < 2 ^ 32 ∧
        2 ^ 32 < hexFile.addressBase.toNat + field.toNat + payload.length
    · rw [process_crossing heap hexFile field payload rest loaded.mode count crossing.1 crossing.2]
        at returned
      obtain ⟨⟨taken, others, following⟩, result, returned⟩ := (bind_ok_iff _ _ _).mp returned
      have enough : (UInt32.ofNat (payload.length - (2 ^ 32 -
          (hexFile.addressBase.toNat + field.toNat)))).toNat ≤ ((recordBytes 0 field payload ++
            rest).drop (4 + (2 ^ 32 - (hexFile.addressBase.toNat + field.toNat)))).length := by
        rw [UInt32.toNat_ofNat_of_lt' (by rw [UInt32.size]; omega), List.length_drop,
          List.length_append, record_length]
        omega
      obtain ⟨middle, stored, early, _⟩ :=
        add_keeps heap others hexFile following blocks _ _ _ taken loaded enough result
      cases taken with
      | false =>
        obtain ⟨-, rfl, rfl⟩ : false = accepted ∧ others = changed ∧ following = relinked := by
          simpa using returned
        exact ⟨middle, stored, early⟩
      | true =>
        have front : (UInt8.ofNat (2 ^ 32 - (hexFile.addressBase.toNat + field.toNat))).toNat ≤
            ((recordBytes 0 field payload ++ rest).drop 4).length := by
          rw [UInt8.toNat_ofNat', room, List.length_append]
          omega
        obtain ⟨after, last, late⟩ := store_keeps others changed _ relinked middle _ _ accepted
          (stored.counted _) front (by simpa using returned)
        exact ⟨after, last, fun position held => late position (early position held)⟩
    · have inside : ¬ crosses hexFile (recordBytes 0 field payload ++ rest) = true := by
        rwa [crosses_iff hexFile field payload rest (by omega)]
      rw [process_whole heap hexFile field payload rest loaded.mode inside] at returned
      have front : (UInt8.ofNat payload.length).toNat ≤
          ((recordBytes 0 field payload ++ rest).drop 4).length := by
        rw [UInt8.toNat_ofNat', room, List.length_append]
        omega
      exact store_keeps heap changed hexFile relinked blocks _ _ accepted loaded front returned

/-- A run of accepted records keeps what is stored. So a byte that was misplaced once is there at
the end. -/
theorem records_keep (heap changed : Heap Block) (hexFile relinked : IntelHexFormat)
    (blocks : List Block) (records : List HexRecord) (lines : List (List u8 × LocalBuffer))
    (loaded : Loaded heap hexFile blocks) (countable : ∀ record ∈ records, record.Countable)
    (spelled : SpellRecords records lines)
    (returned : parseLines heap hexFile lines = .ok (true, changed, relinked)) :
    ∃ after, Loaded changed relinked after ∧ Keeps blocks after := by
  induction spelled generalizing heap hexFile blocks with
  | nil =>
    obtain ⟨rfl, rfl⟩ : heap = changed ∧ hexFile = relinked := by simpa [parseLines] using returned
    exact ⟨blocks, loaded, fun _ stored => stored⟩
  | @cons record line records lines spells _ inductionHypothesis =>
    rw [parseLines] at returned
    obtain ⟨⟨taken, others, following⟩, result, returned⟩ := (bind_ok_iff _ _ _).mp returned
    obtain ⟨middle, stored, early⟩ :=
      record_keeps heap others hexFile following blocks record line.1 line.2
      taken loaded (countable record (by simp)) spells result
    cases taken with
    | false => simp at returned
    | true =>
      obtain ⟨after, last, late⟩ := inductionHypothesis others following middle stored
        (fun other member => countable other (by simp [member])) (by simpa using returned)
      exact ⟨after, last, fun position held => late position (early position held)⟩

/-! ## Records in one piece from address 0 -/

/-- The list is one block from address 0 on that has grown to a length, or empty. This is what a
file that fills the space from its first address looks like while it is read. -/
def Solid (blocks : List Block) (count : Nat) : Prop :=
  (blocks = [] ∧ count = 0) ∨ ∃ block, blocks = [block] ∧ block.address = 0 ∧
    block.data.length = count

/-- Bytes added at the end of the one block lengthen it. An empty list gets its first block at
address zero. -/
theorem solid_route (address : u32) (bytes : List u8) (blocks after : List Block) (accepted : Bool)
    (route : Route address bytes blocks accepted after) (sized : ∀ block ∈ blocks, block.Sized)
    (solid : Solid blocks address.toNat) : Solid after (address.toNat + bytes.length) := by
  rcases solid with ⟨rfl, zero⟩ | ⟨block, rfl, atZero, size⟩
  · generalize whole : ([] : List Block) = blocks at route
    cases route with
    | first => exact Or.inr ⟨_, rfl, UInt32.toNat_inj.mp zero, by simp [Block.fresh, zero]⟩
    | appendTail | afterTail | appendInner | between | refuseNext => simp at whole
    | before | refuseHead => simp at whole
  · have touching : block.wrappedEnd = address := by
      have length : block.data.length = block.length.toNat := sized block (by simp)
      rw [Block.wrappedEnd, atZero, UInt32.zero_add, ← UInt32.toNat_inj]
      omega
    obtain ⟨-, rfl⟩ := route_tail address bytes [] after block accepted route touching
    exact Or.inr ⟨_, rfl, atZero, by simp [Block.extend, size]⟩

/-- A data record that continues the one block lengthens it. It is appended to the tail, the only
block there is. -/
theorem solid_step (heap changed : Heap Block) (hexFile relinked : IntelHexFormat)
    (blocks : List Block) (field : u16) (payload : List u8) (count : Nat) (line : List u8)
    (data : LocalBuffer) (accepted : Bool) (loaded : Loaded heap hexFile blocks)
    (solid : Solid blocks count) (countable : (HexRecord.data field payload).Countable)
    (continues : (placed hexFile.addressBase field payload).map Prod.fst = List.range' count
      payload.length)
    (spells : SpellsLine (HexRecord.data field payload).bytes line)
    (returned : parseOneLine heap hexFile line data = .ok (accepted, changed, relinked)) :
    ∃ after, Loaded changed relinked after ∧ relinked.addressBase = hexFile.addressBase ∧
      Solid after (count + payload.length) := by
  obtain ⟨positive, short⟩ := countable
  have baseBound := hexFile.addressBase.toNat_lt
  have each : ∀ offset, offset < payload.length →
      (hexFile.addressBase.toNat + field.toNat + offset) % 2 ^ 32 = count + offset := by
    intro offset inside
    have entry := congrArg (fun addresses => addresses[offset]?) continues
    simpa [placed, inside] using entry
  have first := each 0 (by omega)
  have last := each (payload.length - 1) (by omega)
  obtain ⟨nodes, owns, rfl⟩ := loaded.holds
  have address : (dataAddress hexFile field).toNat = count := by
    rw [data_address]
    omega
  obtain ⟨rest, parsed⟩ :=
    (parse_record_line heap hexFile line 0 field payload data spells (by omega)).1 short
  have inside : ¬ crosses hexFile (recordBytes 0 field payload ++ rest) = true := by
    rw [crosses_iff hexFile field payload rest (by omega)]
    omega
  rw [parsed, process_whole heap hexFile field payload rest loaded.mode inside] at returned
  rcases store_payload heap hexFile nodes 0 field payload rest payload.length owns loaded.generous
    (Nat.le_refl _) (by omega) with ⟨fault, _⟩ | ⟨taken, others, following, after, result, added⟩
  · rw [fault] at returned
    exact absurd returned (by simp)
  · rw [result] at returned
    obtain ⟨rfl, rfl, rfl⟩ :
        taken = accepted ∧ others = changed ∧ _ = relinked := by
      simpa using returned
    have grown := solid_route _ _ _ _ _ added.route owns.sized (address ▸ solid)
    obtain ⟨_, sameBase, sameMode, _⟩ := same_header_fields _ _ added.header
    rw [List.take_length, address] at grown
    have kept : Loaded others following (values after) :=
      ⟨⟨after, added.owns, rfl⟩, added.generous, sameMode.trans loaded.mode⟩
    cases taken with
    | false => exact ⟨_, kept, sameBase, grown⟩
    | true => exact ⟨_, kept.counted _, sameBase, grown⟩

/-- A run of accepted records that name consecutive addresses from the end of the one
block on lengthens it by their number. -/
theorem solid_run (heap changed : Heap Block) (hexFile relinked : IntelHexFormat) (base : u32)
    (blocks : List Block) (records : List HexRecord) (lines : List (List u8 × LocalBuffer))
    (count : Nat) (loaded : Loaded heap hexFile blocks) (atBase : hexFile.addressBase = base)
    (solid : Solid blocks count) (countable : ∀ record ∈ records, record.Countable)
    (continues : (named base records).map Prod.fst = List.range' count (named base records).length)
    (spelled : SpellRecords records lines)
    (returned : parseLines heap hexFile lines = .ok (true, changed, relinked)) :
    ∃ after, Loaded changed relinked after ∧ Solid after (count + (named base records).length) := by
  induction spelled generalizing heap hexFile base blocks count with
  | nil =>
    obtain ⟨rfl, rfl⟩ : heap = changed ∧ hexFile = relinked := by simpa [parseLines] using returned
    exact ⟨blocks, loaded, by simpa only [named, List.length_nil, Nat.add_zero] using solid⟩
  | @cons record line records lines spells _ inductionHypothesis =>
    have restCountable : ∀ other ∈ records, other.Countable :=
      fun other member => countable other (by simp [member])
    rw [parseLines] at returned
    obtain ⟨⟨taken, others, following⟩, result, returned⟩ := (bind_ok_iff _ _ _).mp returned
    cases record with
    | base high low =>
      simp only [named] at continues ⊢
      rw [base_parsed heap hexFile high low line.1 line.2 spells] at result
      obtain ⟨rfl, rfl, moved⟩ : true = taken ∧ heap = others ∧
          { hexFile with addressBase := upperWord high low, fileMode := .linear } = following := by
        simpa using result
      obtain ⟨⟨nodes, owns, same⟩, generous, mode⟩ := loaded
      have stored : Loaded heap following blocks :=
        ⟨⟨nodes, owns_congr heap hexFile following nodes owns (by rw [← moved]) (by rw [← moved]),
          same⟩, generous, by rw [← moved]⟩
      exact inductionHypothesis heap following (upperWord high low) blocks count stored
        (by rw [← moved]) solid restCountable continues (by simpa using returned)
    | data field payload =>
      have size : (placed base field payload).length = payload.length := List.length_mapIdx
      simp only [named, List.map_append, List.length_append, ← List.range'_append_1] at continues ⊢
      obtain ⟨here, later⟩ := List.append_inj continues (by simp)
      rw [size] at here later ⊢
      obtain ⟨middle, stored, sameBase, grown⟩ :=
        solid_step heap others hexFile following blocks field payload
        count line.1 line.2 taken loaded solid (countable _ (by simp)) (atBase ▸ here) spells result
      cases taken with
      | false => simp at returned
      | true =>
        obtain ⟨after, last, solidAfter⟩ := inductionHypothesis others following base middle
          (count + payload.length) stored (sameBase.trans atBase) grown restCountable later
          (by simpa using returned)
        rw [Nat.add_assoc] at solidAfter
        exact ⟨after, last, solidAfter⟩

/-- One block cannot hold the whole address space. Its length is a word. -/
theorem solid_bound (heap : Heap Block) (hexFile : IntelHexFormat) (blocks : List Block)
    (count : Nat) (loaded : Loaded heap hexFile blocks) (solid : Solid blocks count) :
    count < 2 ^ 32 := by
  obtain ⟨⟨nodes, owns, rfl⟩, _, _⟩ := loaded
  rcases solid with ⟨_, rfl⟩ | ⟨block, whole, _, size⟩
  · omega
  · have length : block.data.length = block.length.toNat := owns.sized block (by simp [whole])
    have bound := block.length.toNat_lt
    omega

/-- The cells of ascending blocks that fill a space from 0 on come one after the other. Nothing is
missing between two of them and nothing is doubled. -/
theorem full_cells (blocks : List Block) (top : Nat) (ascending : Ascending (segments blocks))
    (within : ∀ block ∈ blocks, block.segment.stop ≤ top)
    (full : ∀ position < top, image (segments blocks) position ≠ none) :
    (cells (segments blocks)).map Prod.fst = List.range' 0 top := by
  apply List.Pairwise.eq_of_mem_iff (cells_ascending _ ascending) List.pairwise_lt_range'
  intro position
  rw [List.mem_range'_1, Nat.zero_add]
  constructor
  · intro member
    obtain ⟨⟨position, element⟩, belongs, rfl⟩ := List.mem_map.mp member
    refine ⟨Nat.zero_le _, ?_⟩
    by_contra above
    have stored := (cells_mem _ ascending _ _).mp belongs
    have silent : image (segments blocks) position = none := by
      apply (image_none_iff _ _).mpr
      intro segment inBlocks
      obtain ⟨block, holder, rfl⟩ := List.mem_map.mp inBlocks
      have ends := within block holder
      exact Or.inr (by omega)
    rw [silent] at stored
    exact absurd stored (by simp)
  · rintro ⟨_, below⟩
    obtain ⟨element, stored⟩ := Option.ne_none_iff_exists'.mp (full position below)
    exact List.mem_map.mpr ⟨(position, element), (cells_mem _ ascending _ _).mpr stored, rfl⟩

/-! ## What the writer prints -/

/-- The range does not end one byte below a page end. Such a range would leave one byte of its
page to the next record. -/
def EndsApart (address rest : Nat) : Prop := (address + rest) % 65536 ≠ 65535

/-- Where no end is one byte below a page, every record stays inside its block. So no piece is
longer than 33 bytes. -/
theorem ends_progressive (maxLen : u32) (two : maxLen.toNat = 16 ∨ maxLen.toNat = 32) :
    Progressive 33 maxLen EndsApart := by
  intro address rest positive apart
  rw [EndsApart] at apart
  by_cases cut : pageRoom address ≤ min rest maxLen.toNat + 1
  · simp only [pieceLength, if_pos cut, EndsApart]
    rw [pageRoom] at cut ⊢
    omega
  · simp only [pieceLength, if_neg cut, EndsApart]
    omega

/-- The first address is announced, although the cached upper half starts as 0xFFFF. In the last
page this is so only for its last bytes. -/
def Announced (blocks : List Block) : Prop :=
  ∀ head ∈ blocks.head?, head.address.toNat < 0xFFFF0000 ∨ 0xFFFFFF01 < head.address.toNat

/-- At the first block, where the upper address still has its initial value 0xFFFF, an extended
linear address record is written everywhere but in the last 64 KiB, and there too for the last
addresses, whose data could cross the end. -/
theorem needs_linear_first (addr : u32) :
    needsLinear addr 0xFFFF = true ↔ addr.toNat < 0xFFFF0000 ∨ 0xFFFFFF01 < addr.toNat := by
  have bound := addr.toNat_lt
  have low : (addr &&& 0xFFFF).toNat = addr.toNat % 65536 := by
    rw [UInt32.toNat_and]
    exact Nat.and_two_pow_sub_one_eq_mod addr.toNat 16
  simp only [needsLinear, decide_eq_true_eq, ne_eq, gt_iff_lt, ← UInt32.toNat_inj,
    UInt32.lt_iff_toNat_lt, UInt32.toNat_add, UInt32.toNat_shiftRight, low, UInt32.reduceToNat,
    Nat.reduceMod, Nat.shiftRight_eq_div_pow]
  omega

/-- The lines printed for the blocks: tiles under announced upper halves, with an
announcement in front if the first address needs one. -/
structure Written (blocks : List Block) (records : List Printed) : Prop where
  tiles : Tiles 33 blocks 0 records
  based : Based 0xFFFF records
  opening : Announced blocks → ∃ line rest, records = .control line :: rest
  silent : ¬ Announced blocks →
    ∃ addr offset restLen dataLen line rest,
      records = .data addr offset restLen dataLen line :: rest

/-- The writer ends without a fault, and whatever it returns is the same printed text. Proof: the
loop tiles the blocks within some fuel, and more fuel changes nothing. -/
theorem output_written (heap : Heap Block) (ihf : IntelHexFormat) (blocks : List Block)
    (bufSize : Nat) (str : TextBuffer) (holds : Holds heap ihf blocks) (tidy : Tidy blocks)
    (nonempty : blocks ≠ []) (ended : ihf.endOfFile = true) (roomy : 38 ≤ bufSize)
    (apart : ∀ block ∈ blocks, EndsApart block.address.toNat block.length.toNat) :
    ∃ records, Written blocks records ∧
      (∃ fuel, intelHexFileOutput heap ihf bufSize fuel str true =
        .ok (true, records ++ trailer ihf)) ∧
      ∀ fuel printed, intelHexFileOutput heap ihf bufSize fuel str true = .ok (true, printed) →
        printed = records ++ trailer ihf := by
  obtain ⟨nodes, owns, rfl⟩ := holds
  have writable : ∀ block ∈ values nodes, Writable block := tidy_writable _ tidy
  have two := max_length_cases ihf
  cases nodes with
  | nil => exact absurd rfl nonempty
  | cons node rest =>
    obtain ⟨pointer, block⟩ := node
    obtain ⟨present, next, found, _⟩ := owns.chain
    have chain := owns.chain
    rw [present] at chain
    have start := positioned_start heap pointer block rest str.bytes chain
    obtain ⟨fuel, records, final, looped, size, tiles, based⟩ :=
      loop_tiles heap bufSize 33 (maxLength ihf)
      EndsApart (by omega) (by omega) (by omega) (by omega) (ends_progressive _ two) _ writable
        apart _ start
      str.size
    have opens := loop_opening heap bufSize (maxLength ihf) fuel _ pointer ⟨block, next⟩ records
      final rfl found looped
    have announced : Announced (values ((pointer, block) :: rest)) ↔
        needsLinear block.address 0xFFFF = true := by
      rw [needs_linear_first]
      simp [Announced]
    refine ⟨records, ⟨tiles, based, ?_, ?_⟩, ⟨fuel, output_trailer heap ihf bufSize fuel str pointer
      ⟨block, next⟩ records final ended present found (by omega) looped size⟩, ?_⟩
    · intro first
      rwa [if_pos (announced.mp first)] at opens
    · intro unannounced
      rw [if_neg (fun needed => unannounced (announced.mpr needed))] at opens
      exact ⟨_, opens⟩
    · intro other printed returned
      obtain ⟨others, later, last, again, rfl⟩ := output_returns heap ihf bufSize other str pointer
        ⟨block, next⟩ printed present found returned
      have early := write_loop_fuel heap bufSize (maxLength ihf) fuel other _ records final looped
      have late := write_loop_fuel heap bufSize (maxLength ihf) other fuel _ others last again
      rw [Nat.add_comm, late] at early
      obtain ⟨rfl, rfl⟩ : others = records ∧ last = final := by simpa using early
      have whole := output_trailer heap ihf bufSize other str pointer ⟨block, next⟩ others last
        ended present found (by omega) again size
      rw [returned] at whole
      exact (Prod.mk.inj (Except.ok.inj whole)).2

/-! ## The round trip -/

/-- Reading the lines back from the fresh state, into whatever arrays, accepts all of
them and leaves the same map, a marked end and the start address as it was written. -/
def ReadsBack (free : Heap Block) (ihf : IntelHexFormat) (blocks : List Block)
    (printed : List Printed) : Prop :=
  ∀ lines : List (List u8 × LocalBuffer), lines.map Prod.fst = printed.map Printed.line →
    ∃ changed relinked after, parseLines free .fresh lines = .ok (true, changed, relinked) ∧
      Holds changed relinked after ∧
      (∀ position, image (segments after) position = image (segments blocks) position) ∧
      relinked.endOfFile = true ∧ relinked.startLinearAddress = startRead ihf.startLinearAddress 0

/-- Some address of the 32-bit space is not stored. A list without room is as long as the space,
which no length field can hold. -/
def LeavesRoom (blocks : List Block) : Prop :=
  ∃ position < 2 ^ 32, image (segments blocks) position = none

section Reading

variable (free : Heap Block) (ihf : IntelHexFormat) (blocks : List Block) (records : List Printed)

/-- The fresh state, with nothing stored. The base is zero and the mode is linear. -/
theorem fresh_reading (generous : free.Generous) : Reading free .fresh 0 [] :=
  ⟨⟨[], owns_nothing _ _ rfl rfl, rfl⟩, generous, tidy_nil, rfl, rfl⟩

/-- With an announcement in front, the base of the reader is right from the start. No record
depends on the initial base of the reader. -/
theorem announced_records (tidy : Tidy blocks) (written : Written blocks records)
    (announced : Announced blocks) :
    ∃ spelled : List HexRecord,
      records.map Printed.line = spelled.map (fun record => spelledLine record.bytes) ∧
      (∀ record ∈ spelled, record.Countable) ∧ named 0 spelled = cells (segments blocks) := by
  obtain ⟨line, rest, rfl⟩ := written.opening announced
  have tiles := written.tiles
  have based := written.based
  generalize (0xFFFF : u32) = cached at based
  cases tiles with
  | control _ following =>
    cases based with
    | linear _ upper later =>
      obtain ⟨spelled, lines, countable, names, _⟩ :=
        tiles_records 33 (by omega) blocks 0 rest following upper
        later (tidy_writable _ tidy)
      refine ⟨.base (upper >>> 8).toUInt8 upper.toUInt8 :: spelled, ?_, ?_, ?_⟩
      · rw [List.map_cons, List.map_cons, lines]
        rfl
      · simpa [HexRecord.Countable] using countable
      · rw [named, upper_word_bytes, names, List.drop_zero]

/-- A map that has exactly the cells of ascending blocks is theirs. So the list that is read back
has their image. -/
theorem entered_same (after : List Block) (ascending : Ascending (segments blocks))
    (enters : Enters (cells (segments blocks)) (image (segments [])) (image (segments after)))
    (position : Nat) : image (segments after) position = image (segments blocks) position := by
  cases stored : image (segments blocks) position with
  | some element => exact enters.1 (position, element) ((cells_mem _ ascending _ _).mpr stored)
  | none =>
    apply enters.2 position
    rintro ⟨_, element⟩ member rfl
    rw [(cells_mem _ ascending _ _).mp member] at stored
    exact absurd stored (by simp)

/-- A file with an announced first address that leaves room is read back. The records name the
cells in ascending order, so each is stored behind the others. -/
theorem announced_reads_back (generous : free.Generous) (tidy : Tidy blocks)
    (written : Written blocks records) (announced : Announced blocks) (room : LeavesRoom blocks) :
    ReadsBack free ihf blocks (records ++ trailer ihf) := by
  intro lines same
  obtain ⟨spelled, texts, countable, names⟩ :=
    announced_records blocks records tidy written announced
  rw [List.map_append] at same
  obtain ⟨front, back, rfl, frontSame, backSame⟩ := List.map_eq_append_iff.mp same
  have ordered : ((named 0 spelled).map Prod.fst).Pairwise (· < ·) := by
    rw [names]
    exact cells_ascending _ tidy.ascending
  rcases records_run free .fresh 0 [] spelled front (fresh_reading free generous)
    (Or.inl (by simp [Below]))
    countable (ordered.imp fun before => Nat.ne_of_lt before) (fun _ _ => rfl)
    (ascending_top_last 0 spelled ordered)
      (spelled_records spelled front (frontSame.trans texts)) with
    ⟨_, fills⟩ | ⟨changed, relinked, after, _, result, reading, marks, enters⟩
  · obtain ⟨position, bound, silent⟩ := room
    obtain ⟨⟨_, element⟩, member, rfl⟩ := fills position bound rfl
    rw [names] at member
    rw [(cells_mem _ tidy.ascending _ _).mp member] at silent
    exact absurd silent (by simp)
  · obtain ⟨nodes, owns, held⟩ := reading.holds
    rw [names] at enters
    have read := trailer_read changed relinked ihf back backSame
    rw [marks.1] at read
    refine ⟨changed, { relinked with
        startLinearAddress := startRead ihf.startLinearAddress 0
        endOfFile := true }, after, ?_, ⟨nodes, owns_congr changed relinked _ nodes owns rfl rfl,
          held⟩,
      entered_same blocks after tidy.ascending enters, rfl, rfl⟩
    rw [parse_lines_append, result, ok_bind]
    exact read

/-- What is read back is already there in front of the trailer. The trailer stores no byte. -/
theorem read_records (back : ReadsBack free ihf blocks (records ++ trailer ihf)) :
    ∃ lines changed relinked after, lines.map Prod.fst = records.map Printed.line ∧
      parseLines free .fresh lines = .ok (true, changed, relinked) ∧ Holds changed relinked after ∧
      ∀ position, image (segments after) position = image (segments blocks) position := by
  have readable : ∀ printed : List Printed,
      (printed.map fun print => (print.line, LocalBuffer.zero)).map Prod.fst =
        printed.map Printed.line := by
    intro printed
    rw [List.map_map]
    rfl
  obtain ⟨changed, relinked, after, returned, ⟨nodes, owns, held⟩, same, _⟩ := back _ (readable _)
  rw [List.map_append, parse_lines_append] at returned
  obtain ⟨⟨accepted, others, following⟩, early, returned⟩ := (bind_ok_iff _ _ _).mp returned
  cases accepted with
  | false => simp at returned
  | true =>
    simp only [if_true] at returned
    rw [trailer_read others following ihf _ (readable _)] at returned
    obtain ⟨rfl, rfl⟩ : others = changed ∧ _ = relinked := by simpa using returned
    exact ⟨_, others, following, after, readable _, early,
      ⟨nodes, owns_congr others _ following nodes owns rfl rfl, held⟩, same⟩

/-- Blocks whose first address is not announced lie in the last page. So a byte in the first page
was not written for them. -/
theorem unannounced_above (tidy : Tidy blocks) (unannounced : ¬ Announced blocks) (position : Nat)
    (low : position < 65536) : image (segments blocks) position = none := by
  apply (image_none_iff _ _).mpr
  intro segment member
  cases blocks with
  | nil => simp at member
  | cons head rest =>
    simp only [Announced, List.head?_cons, Option.mem_def, Option.some.injEq, forall_eq']
      at unannounced
    apply Or.inl
    rcases List.mem_cons.mp member with rfl | deeper
    · rw [Block.segment_start]
      omega
    · have behind := (List.pairwise_cons.mp tidy.ascending).1 segment deeper
      have spans := head.segment.start_le_stop
      rw [Block.segment_start] at spans
      omega

/-- A first record that is not announced ends up in the first page. Proof: the reader's base is
zero there, and what is stored once is kept. -/
theorem unannounced_misplaced (generous : free.Generous) (tidy : Tidy blocks)
    (written : Written blocks records) (unannounced : ¬ Announced blocks) :
    ¬ ReadsBack free ihf blocks (records ++ trailer ihf) := by
  intro back
  obtain ⟨lines, changed, relinked, after, texts, returned, holds, same⟩ :=
    read_records free ihf blocks records back
  obtain ⟨addr, offset, restLen, dataLen, line, rest, rfl⟩ := written.silent unannounced
  obtain ⟨spelled, printed, countable, _, first⟩ :=
    tiles_records 33 (by omega) blocks 0 _ written.tiles 0xFFFF
    written.based (tidy_writable _ tidy)
  obtain ⟨payload, later, rfl⟩ := first _ _ _ _ _ _ rfl
  obtain ⟨positive, count⟩ := countable (.data addr.toUInt16 payload) (by simp)
  have spells := spelled_records _ lines (texts.trans printed)
  cases spells with
  | @cons _ head _ tail headSpells tailSpells =>
    rw [parseLines] at returned
    obtain ⟨⟨accepted, others, following⟩, result, returned⟩ := (bind_ok_iff _ _ _).mp returned
    rcases data_step free .fresh 0 [] addr.toUInt16 payload head.1 head.2
      (fresh_reading free generous)
      (by simp [Below]) positive count (fun _ _ => rfl) headSpells with
      ⟨fault, _⟩ | ⟨moved, between, stored, parsed, reading, _, enters, _⟩
    · rw [fault] at result
      exact absurd result (by simp)
    · rw [parsed] at result
      obtain ⟨rfl, rfl, rfl⟩ :
          true = accepted ∧ moved = others ∧ between = following := by
        simpa using result
      obtain ⟨final, loaded, keeps⟩ := records_keep moved changed between relinked stored later tail
        ⟨reading.holds, reading.generous, reading.mode⟩ (fun record member =>
          countable record (by simp [member]))
        tailSpells (by simpa using returned)
      obtain rfl := holds_unique _ _ _ _ loaded.holds holds
      have stored := enters.1 _ ((placed_mem _ _ _ _).mpr ⟨0, positive, rfl⟩)
      have kept := keeps _ (by rw [stored]; simp)
      rw [same] at kept
      exact kept (unannounced_above blocks tidy unannounced _ (by
        have zero : (0 : u32).toNat = 0 := rfl
        have bound := addr.toUInt16.toNat_lt
        omega))

/-- A file that fills the address space cannot be read back. Proof: the single block it is read
into would have length 2^32, so one extension runs over its array. -/
theorem full_refused (generous : free.Generous) (tidy : Tidy blocks)
    (written : Written blocks records) (announced : Announced blocks) (full : ¬ LeavesRoom blocks) :
    ¬ ReadsBack free ihf blocks (records ++ trailer ihf) := by
  intro back
  obtain ⟨lines, changed, relinked, after, texts, returned, holds, same⟩ :=
    read_records free ihf blocks records back
  obtain ⟨spelled, printed, countable, names⟩ :=
    announced_records blocks records tidy written announced
  have filled : (named 0 spelled).map Prod.fst = List.range' 0 (2 ^ 32) := by
    rw [names]
    exact full_cells blocks _ tidy.ascending tidy.within fun position bound silent =>
      full ⟨position, bound, silent⟩
  have count := congrArg List.length filled
  rw [List.length_map, List.length_range'] at count
  have reading := fresh_reading free generous
  obtain ⟨stored, loaded, solid⟩ := solid_run free changed .fresh relinked 0 [] spelled lines 0
    ⟨reading.holds, reading.generous, reading.mode⟩ rfl (Or.inl ⟨rfl, rfl⟩) countable
      (by rw [filled, count])
    (spelled_records spelled lines (texts.trans printed)) returned
  have bound := solid_bound changed relinked stored _ loaded solid
  omega

end Reading

/-- Lines written for a tidy list that never ends one byte below a page end are read back exactly
when the first address is announced and the list leaves room. Proof: the printed lines name the
cells of the blocks in ascending order; a first record without announcement is misplaced for good,
and a full space ends in one block that is too long. -/
theorem round_trip_exact (heap free : Heap Block) (ihf : IntelHexFormat) (blocks : List Block)
    (bufSize : Nat) (str : TextBuffer) (holds : Holds heap ihf blocks) (tidy : Tidy blocks)
    (nonempty : blocks ≠ []) (ended : ihf.endOfFile = true) (roomy : 38 ≤ bufSize)
    (apart : ∀ block ∈ blocks, EndsApart block.address.toNat block.length.toNat)
    (generous : free.Generous) :
    (∃ fuel printed, intelHexFileOutput heap ihf bufSize fuel str true = .ok (true, printed) ∧
      ReadsBack free ihf blocks printed) ↔ Announced blocks ∧ LeavesRoom blocks := by
  obtain ⟨records, written, ⟨enough, result⟩, unique⟩ :=
    output_written heap ihf blocks bufSize str holds tidy nonempty ended roomy apart
  constructor
  · rintro ⟨fuel, printed, returned, back⟩
    obtain rfl := unique fuel printed returned
    have announced : Announced blocks := by
      by_contra unannounced
      exact unannounced_misplaced free ihf blocks records generous tidy written unannounced back
    refine ⟨announced, ?_⟩
    by_contra full
    exact full_refused free ihf blocks records generous tidy written announced full back
  · rintro ⟨announced, room⟩
    exact ⟨enough, _, result, announced_reads_back free ihf blocks records generous tidy written
      announced room⟩

/-- Three bytes across the first page end are read back. The second record begins a new page and
is announced. -/
theorem page_end_read_back :
    let block : Block := ⟨0xFFFE, 3, [1, 2, 3]⟩
    ∃ fuel printed,
      intelHexFileOutput (oneBlockHeap block) (oneBlockFile 0 block) 38 fuel .zero true =
        .ok (true, printed) ∧
      ReadsBack ⟨[], fun _ => true⟩ (oneBlockFile 0 block) [block] printed :=
  (round_trip_exact (oneBlockHeap ⟨0xFFFE, 3, [1, 2, 3]⟩) ⟨[], fun _ => true⟩
    (oneBlockFile 0 ⟨0xFFFE, 3, [1, 2, 3]⟩) [⟨0xFFFE, 3, [1, 2, 3]⟩] 38 .zero
    ⟨_, one_block_owns _ 0 _ rfl rfl, rfl⟩ (tidy_single _ rfl (by decide) (by decide)) (by simp) rfl
      (by omega)
    (by
      intro block member
      rw [List.mem_singleton.mp member]
      simp [EndsApart])
    (fun _ => rfl)).mpr
    ⟨by simp [Announced], 0, by omega, rfl⟩

/-- One byte at 0xFFFF0000: no announcement is printed, and the byte is read back to 0. The round
trip fails for it although the block is tidy. -/
theorem last_page_misplaced :
    let block : Block := ⟨0xFFFF0000, 1, [7]⟩
    Tidy [block] ∧ EndsApart block.address.toNat block.length.toNat ∧
      ¬ ∃ fuel printed,
        intelHexFileOutput (oneBlockHeap block) (oneBlockFile 0 block) 38 fuel .zero true =
          .ok (true, printed) ∧
        ReadsBack ⟨[], fun _ => true⟩ (oneBlockFile 0 block) [block] printed := by
  have tidy : Tidy [⟨0xFFFF0000, 1, [7]⟩] := tidy_single _ rfl (by decide) (by decide)
  refine ⟨tidy, by simp [EndsApart], ?_⟩
  rintro ⟨fuel, printed, returned, back⟩
  obtain ⟨records, written, _, unique⟩ := output_written (oneBlockHeap ⟨0xFFFF0000, 1, [7]⟩)
    (oneBlockFile 0 ⟨0xFFFF0000, 1, [7]⟩) _ 38 .zero ⟨_, one_block_owns _ 0 _ rfl rfl, rfl⟩ tidy
      (by simp) rfl
    (by omega) (by simp [EndsApart])
  obtain rfl := unique fuel printed returned
  exact unannounced_misplaced _ _ _ records (fun _ => rfl) tidy written (by simp [Announced]) back

end EffiLib.IntelHex
