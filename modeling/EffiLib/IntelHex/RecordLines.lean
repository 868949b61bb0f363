import EffiLib.IntelHex.AcceptedLines

/-!
# Lines that spell one record

A record is its count, its address field, its type and its payload, followed by the
byte that brings the sum to zero; a record line spells these bytes in digits of
either case. The decoder reads them back exactly as long as they fit its array of
256 bytes, which leaves room for 251 of payload.
-/

namespace EffiLib.IntelHex

open Buffers LinkedHeap Segments

/-- The bytes of a record in front of its checksum. The address field is stored high byte
first. -/
def recordBody (kind : u8) (field : u16) (payload : List u8) : List u8 :=
  UInt8.ofNat payload.length :: (field >>> 8).toUInt8 :: field.toUInt8 :: kind :: payload

/-- All bytes of a record. Their sum is zero. -/
def recordBytes (kind : u8) (field : u16) (payload : List u8) : List u8 :=
  recordBody kind field payload ++ [0 - checksum (recordBody kind field payload)]

/-- A line that spells the bytes in digits of either case and ends in a newline. Nothing but
digits stands between the colon and the newline. -/
def SpellsLine (bytes line : List u8) : Prop :=
  ∃ text, Encodes text bytes ∧ line = code ':' :: (text ++ [code '\n'])

/-- A record has five bytes beside its payload. They are the count, the address, the type and the
checksum. -/
theorem record_length (kind : u8) (field : u16) (payload : List u8) :
    (recordBytes kind field payload).length = payload.length + 5 := by
  simp [recordBytes, recordBody]

/-- The last byte completes the sum. The sum of all bytes is zero then. -/
theorem record_checksum (kind : u8) (field : u16) (payload : List u8) :
    checksum (recordBytes kind field payload) = 0 := by
  rw [recordBytes, checksum_append, checksum_single]
  grind

/-- The count and the type of a record are where the switch looks for them. The payload is short
enough to be counted. -/
theorem record_count (kind : u8) (field : u16) (payload rest : List u8) :
    (recordBytes kind field payload ++ rest).getD 0 0 = UInt8.ofNat payload.length := rfl

/-- The fourth byte of a record is its type, whatever stands behind the record. It selects the
case of the switch. -/
theorem record_kind (kind : u8) (field : u16) (payload rest : List u8) :
    (recordBytes kind field payload ++ rest).getD 3 0 = kind := rfl

/-- The two address bytes make up the address field again. The highest byte comes first. -/
theorem record_field (kind : u8) (field : u16) (payload rest : List u8) :
    addressField (recordBytes kind field payload ++ rest) = field := by
  have halves : addressField (recordBytes kind field payload ++ rest) =
      (field >>> 8).toUInt8.toUInt16 * 256 + field.toUInt8.toUInt16 := rfl
  have bound := field.toNat_lt
  rw [halves, ← UInt16.toNat_inj]
  simp only [UInt16.toNat_add, UInt16.toNat_mul, UInt8.toNat_toUInt16, UInt16.toNat_toUInt8,
    UInt16.toNat_shiftRight, UInt16.reduceToNat, Nat.reduceMod, Nat.shiftRight_eq_div_pow]
  omega

/-- The payload follows the four bytes in front. The checksum comes behind it. -/
theorem record_payload (kind : u8) (field : u16) (payload rest : List u8) :
    (recordBytes kind field payload ++ rest).drop 4 =
      payload ++ (0 - checksum (recordBody kind field payload)) :: rest := by
  simp [recordBytes, recordBody]

/-- A record with at most 251 bytes of payload is read back, one with more fails the
comparison of the lengths. -/
theorem parse_record_line (heap : Heap Block) (hexFile : IntelHexFormat) (line : List u8)
    (kind : u8) (field : u16) (payload : List u8) (data : LocalBuffer)
    (spells : SpellsLine (recordBytes kind field payload) line) (count : payload.length ≤ 255) :
    (payload.length ≤ 251 → ∃ rest,
      parseOneLine heap hexFile line data =
        processRecord heap hexFile (recordBytes kind field payload ++ rest)) ∧
    (251 < payload.length → parseOneLine heap hexFile line data = .ok (false, heap, hexFile)) := by
  obtain ⟨text, encodes, rfl⟩ := spells
  have size := encodes_length _ _ encodes
  rw [record_length] at size
  have plain : ∀ ch ∈ text, ch ≠ 0 := fun ch member =>
    digit_nonzero ch (encodes_valid _ _ encodes ch member)
  have parsed := parse_colon_line heap hexFile text (code '\n') data (by omega) plain (by decide)
  have filled : decoded data text =
      recordBytes kind field payload ++
        data.bytes.drop (recordBytes kind field payload).length := by
    rw [decoded, encodes_digits _ _ encodes, pack_nibbles]
  have half : (text.length + 1) / 2 = (recordBytes kind field payload).length := by
    rw [record_length]
    omega
  rw [parsed]
  constructor
  · intro short
    have checks : TextChecks data text := by
      refine ⟨by omega, ?_, ?_⟩
      · rw [filled, record_count, half, record_length, UInt8.toNat_ofNat']
        omega
      · rw [filled, half, List.take_left' rfl, record_checksum]
    exact ⟨_, by rw [if_pos checks, filled]⟩
  · intro long
    rw [if_neg (fun checks => absurd checks.1 (by omega))]

/-! ## Data records in linear mode -/

/-- Where the code puts the first byte of a data record, in machine arithmetic. A sum past the top
starts over at zero. -/
def dataAddress (hexFile : IntelHexFormat) (field : u16) :
    u32 := hexFile.addressBase + field.toUInt32

/-- The address of a data record is the sum of base and field, wrapped at the end of the address
space. -/
theorem data_address (hexFile : IntelHexFormat) (field : u16) :
    (dataAddress hexFile field).toNat = (hexFile.addressBase.toNat + field.toNat) % 2 ^ 32 := by
  rw [dataAddress, UInt32.toNat_add, UInt16.toNat_toUInt32]

/-- The 64-bit test is exact: it asks whether the record begins below 2^32 and ends above it. A
record that begins past 2^32 does not cross it. -/
theorem crosses_iff (hexFile : IntelHexFormat) (field : u16) (payload rest : List u8)
    (count : payload.length ≤ 255) :
    crosses hexFile (recordBytes 0 field payload ++ rest) = true ↔
      hexFile.addressBase.toNat + field.toNat < 2 ^ 32 ∧
        2 ^ 32 < hexFile.addressBase.toNat + field.toNat + payload.length := by
  have baseBound := hexFile.addressBase.toNat_lt
  have fieldBound := field.toNat_lt
  have top : ((1 : u64) <<< 32).toNat = 2 ^ 32 := rfl
  have counted : (UInt8.ofNat payload.length).toUInt64.toNat = payload.length := by
    rw [UInt8.toNat_toUInt64, UInt8.toNat_ofNat']
    omega
  have first : (hexFile.addressBase.toUInt64 + field.toUInt64).toNat =
      hexFile.addressBase.toNat + field.toNat := by
    rw [UInt64.toNat_add, UInt32.toNat_toUInt64, UInt16.toNat_toUInt64]
    omega
  have last : (hexFile.addressBase.toUInt64 + field.toUInt64 +
      (UInt8.ofNat payload.length).toUInt64).toNat =
      hexFile.addressBase.toNat + field.toNat + payload.length := by
    rw [UInt64.toNat_add, first, counted]
    omega
  rw [crosses, record_field, record_count, decide_eq_true_iff, gt_iff_lt, UInt64.lt_iff_toNat_lt,
    UInt64.lt_iff_toNat_lt, first, last, top]

/-- A data record that does not cross 2^32 is one call with its whole payload. The count byte says
how long it is. -/
theorem process_whole (heap : Heap Block) (hexFile : IntelHexFormat) (field : u16)
    (payload rest : List u8) (mode : hexFile.fileMode = .linear)
    (inside : ¬ crosses hexFile (recordBytes 0 field payload ++ rest) = true) :
    processRecord heap hexFile (recordBytes 0 field payload ++ rest) =
      storePayload heap hexFile (recordBytes 0 field payload ++ rest)
        (UInt8.ofNat payload.length) := by
  simp only [processRecord, record_kind, if_true, mode, linearRecord, record_count, inside,
    Bool.false_eq_true, if_false]

/-- Storing the payload calls `AddBlock` with it; the bytes behind it in the array
are out of reach. -/
theorem store_payload (heap : Heap Block) (hexFile : IntelHexFormat) (nodes : List BlockNode)
    (kind : u8) (field : u16) (payload rest : List u8) (stored : Nat)
    (owns : Owns heap hexFile nodes) (generous : heap.Generous) (few : stored ≤ payload.length)
    (count : payload.length ≤ 255) :
    (storePayload heap hexFile (recordBytes kind field payload ++ rest) (UInt8.ofNat stored) =
        .error .outOfBounds ∧
      Overflows (values nodes) (dataAddress hexFile field) stored) ∨
    ∃ accepted changed relinked after,
      storePayload heap hexFile (recordBytes kind field payload ++ rest) (UInt8.ofNat stored) =
        .ok (accepted, changed,
          if accepted then
            { relinked with totalLength := hexFile.totalLength + UInt32.ofNat stored }
          else relinked) ∧
      Added heap hexFile nodes (dataAddress hexFile field) (payload.take stored) accepted changed
        relinked after := by
  have word : (UInt8.ofNat stored).toUInt32 = UInt32.ofNat stored := by
    rw [← UInt32.toNat_inj, UInt8.toNat_toUInt32, UInt8.toNat_ofNat',
      UInt32.toNat_ofNat_of_lt' (by rw [UInt32.size]; omega)]
    omega
  have counted : (UInt32.ofNat stored).toNat = stored :=
    UInt32.toNat_ofNat_of_lt' (by rw [UInt32.size]; omega)
  have outcome := add_block_cases heap hexFile nodes (dataAddress hexFile field)
    ((recordBytes kind field payload ++ rest).drop 4) (UInt32.ofNat stored) owns generous (by
      rw [counted, record_payload, List.length_append]
      omega)
  have bytes : ((recordBytes kind field payload ++ rest).drop 4).take stored =
      payload.take stored := by
    rw [record_payload, List.take_append_of_le_length few]
  rw [Outcome, counted, bytes] at outcome
  simp only [storePayload, record_field, word]
  rcases outcome with ⟨fault, overflow⟩ | ⟨accepted, changed, relinked, after, result, added⟩
  · refine Or.inl ⟨?_, overflow⟩
    rw [dataAddress] at fault
    rw [fault, error_bind]
  · refine Or.inr ⟨accepted, changed, relinked, after, ?_, added⟩
    obtain ⟨header, _⟩ := same_header_fields _ _ added.header
    rw [dataAddress] at result
    rw [result, ok_bind]
    cases accepted with
    | false => rfl
    | true =>
      simp only [if_true]
      rw [header]

/-- A call whose address is the machine end of the tail extends the tail; the scan
that could prefer another block is not made. -/
theorem route_tail (address : u32) (bytes : List u8) (front after : List Block) (tail : Block)
    (accepted : Bool) (route : Route address bytes (front ++ [tail]) accepted after)
    (touching : tail.wrappedEnd = address) :
    accepted = true ∧ after = front ++ [tail.extend bytes] := by
  generalize whole : front ++ [tail] = blocks at route
  have last : blocks.getLast? = some tail := by simp [← whole]
  have wrong : ∀ {other : Block}, blocks.getLast? = some other → other.wrappedEnd ≠ address →
      False := by
    intro other found different
    rw [last] at found
    exact different (Option.some.inj found ▸ touching)
  cases route with
  | first => simp at whole
  | appendTail early block _ =>
    obtain ⟨rfl, same⟩ := List.append_inj' whole rfl
    obtain rfl : tail = block := by simpa using same
    exact ⟨rfl, rfl⟩
  | afterTail early block behind => exact (wrong (by simp) (UInt32.ne_of_lt behind)).elim
  | appendInner early block back final inner =>
    have found : (early ++ block :: (back ++ [final])).getLast? = some final := by
      rw [← List.cons_append, ← List.append_assoc, List.getLast?_concat]
    exact (wrong found (UInt32.ne_of_lt inner).symm).elim
  | between early block late back _ _ ahead _ =>
    obtain ⟨final, found⟩ : ∃ final, (late :: back).getLast? = some final := ⟨_, List.getLast?_cons⟩
    exact (@wrong final (by simp [found])
      (UInt32.ne_of_lt (ahead final (List.mem_of_getLast? found))).symm).elim
  | refuseNext early block late back _ _ ahead _ =>
    obtain ⟨final, found⟩ : ∃ final, (late :: back).getLast? = some final := ⟨_, List.getLast?_cons⟩
    exact (@wrong final (by simp [found])
      (UInt32.ne_of_lt (ahead final (List.mem_of_getLast? found))).symm).elim
  | before head rest ahead _ =>
    obtain ⟨final, found⟩ : ∃ final, (head :: rest).getLast? = some final := ⟨_, List.getLast?_cons⟩
    exact (wrong found (UInt32.ne_of_lt (ahead final (List.mem_of_getLast? found))).symm).elim
  | refuseHead head rest ahead _ =>
    obtain ⟨final, found⟩ : ∃ final, (head :: rest).getLast? = some final := ⟨_, List.getLast?_cons⟩
    exact (wrong found (UInt32.ne_of_lt (ahead final (List.mem_of_getLast? found))).symm).elim

/-- A machine end equal to an address is the integer end, or that end is 2^32 above
the address, which only the last of ascending blocks can reach. -/
theorem machine_end (blocks : List Block) (address : u32) (ascending : Ascending (segments blocks))
    (sized : ∀ block ∈ blocks, block.Sized) (block : Block) (member : block ∈ blocks)
    (touching : block.wrappedEnd = address) :
    block.segment.stop = address.toNat ∨
      (blocks.getLast? = some block ∧ block.segment.stop = address.toNat + 2 ^ 32) := by
  have reduced := block.wrapped_end_mod (sized block member)
  have bound := block.segment_stop_bound (sized block member)
  rw [touching] at reduced
  obtain ⟨front, back, rfl⟩ := List.append_of_mem member
  rcases List.eq_nil_or_concat' back with rfl | ⟨inner, tail, rfl⟩
  · by_cases below : block.segment.stop < 2 ^ 32
    · exact Or.inl (by omega)
    · exact Or.inr ⟨by simp, by omega⟩
  · rw [segments_append, segments_cons, ascending_split] at ascending
    have ends := ascending.2.2 tail.segment (by simp)
    have tailBound := tail.address.toNat_lt
    rw [Block.segment_start] at ends
    exact Or.inl (by omega)

/-- What a data record has to do: the old address map gets exactly these bytes, the
total length grows by their number, and the rest of the state stays. -/
def TakenOver (hexFile : IntelHexFormat) (blocks : List Block) (field : u16) (payload : List u8)
    (changed : Heap Block) (relinked : IntelHexFormat) : Prop :=
  (∃ after, Holds changed relinked after ∧ ∀ position, image (segments after) position =
    overlay ⟨hexFile.addressBase.toNat + field.toNat, payload⟩ (image (segments blocks)) position) ∧
  relinked.totalLength.toNat = hexFile.totalLength.toNat + payload.length ∧
  relinked.addressBase = hexFile.addressBase ∧ relinked.fileMode = hexFile.fileMode ∧
  relinked.endOfFile = hexFile.endOfFile

/-- The record fits the array of the decoder, the total length has room for it, and
the last block, should it end at the record's address modulo 2^32, ends there over
the integers and has room in its length field. -/
def RecordFits (hexFile : IntelHexFormat) (blocks : List Block) (field : u16)
    (payload : List u8) : Prop :=
  payload.length ≤ 251 ∧ hexFile.totalLength.toNat + payload.length < 2 ^ 32 ∧
    ∀ tail ∈ blocks.getLast?,
      tail.segment.stop ≠ hexFile.addressBase.toNat + field.toNat + 2 ^ 32 ∧
      (tail.segment.stop = hexFile.addressBase.toNat + field.toNat →
        tail.length.toNat + payload.length < 2 ^ 32)

section DataRecord

variable (heap : Heap Block) (hexFile : IntelHexFormat) (nodes : List BlockNode) (field : u16)
  (payload line : List u8) (data : LocalBuffer)

/-- A data record line with at most 251 bytes of payload below 2^32 is one `AddBlock`
call with the payload. -/
theorem data_record_outcome (mode : hexFile.fileMode = .linear) (owns : Owns heap hexFile nodes)
    (generous : heap.Generous) (short : payload.length ≤ 251)
    (room : hexFile.addressBase.toNat + field.toNat + payload.length ≤ 2 ^ 32)
    (spells : SpellsLine (recordBytes 0 field payload) line) :
    (parseOneLine heap hexFile line data = .error .outOfBounds ∧
      Overflows (values nodes) (dataAddress hexFile field) payload.length) ∨
    ∃ accepted changed relinked after,
      parseOneLine heap hexFile line data = .ok (accepted, changed,
        if accepted then
          { relinked with totalLength := hexFile.totalLength + UInt32.ofNat payload.length }
        else relinked) ∧
      Added heap hexFile nodes (dataAddress hexFile field) payload accepted changed relinked
        after := by
  obtain ⟨rest, parsed⟩ :=
    (parse_record_line heap hexFile line 0 field payload data spells (by omega)).1 short
  have inside : ¬ crosses hexFile (recordBytes 0 field payload ++ rest) = true := by
    rw [crosses_iff hexFile field payload rest (by omega)]
    omega
  rw [parsed, process_whole heap hexFile field payload rest mode inside]
  have outcome := store_payload heap hexFile nodes 0 field payload rest payload.length owns generous
    (Nat.le_refl _) (by omega)
  rwa [List.take_length] at outcome

/-- A fitting record apart from the blocks is taken over. It takes one call, and the list stays in
order. -/
theorem fitting_taken_over (mode : hexFile.fileMode = .linear) (owns : Owns heap hexFile nodes)
    (generous : heap.Generous) (ascending : Ascending (segments (values nodes)))
    (positive : 1 ≤ payload.length)
    (room : hexFile.addressBase.toNat + field.toNat + payload.length ≤ 2 ^ 32)
    (apart : ∀ block ∈ values nodes,
      block.segment.Apart ⟨hexFile.addressBase.toNat + field.toNat, payload⟩)
    (spells : SpellsLine (recordBytes 0 field payload) line)
    (fits : RecordFits hexFile (values nodes) field payload) :
    ∃ changed relinked, parseOneLine heap hexFile line data = .ok (true, changed, relinked) ∧
      TakenOver hexFile (values nodes) field payload changed relinked := by
  obtain ⟨short, total, atTail⟩ := fits
  have address : (dataAddress hexFile field).toNat = hexFile.addressBase.toNat + field.toNat := by
    rw [data_address, Nat.mod_eq_of_lt (by omega)]
  rw [← address] at apart room
  have genuine : ∀ block ∈ values nodes, block.wrappedEnd = dataAddress hexFile field →
      block.segment.stop = (dataAddress hexFile field).toNat := by
    intro block member touching
    rcases machine_end _ _ ascending owns.sized block member touching with same | ⟨last, above⟩
    · exact same
    · exact absurd (address ▸ above) (atTail block last).1
  rcases data_record_outcome heap hexFile nodes field payload line data mode owns generous short
    (address ▸ room) spells with ⟨_, overflow⟩ | ⟨accepted, changed, relinked, after, parsed, added⟩
  · obtain ⟨front, block, back, whole, touching, overflow, later⟩ := overflow
    have member : block ∈ values nodes := by simp [whole]
    have ends := genuine block member touching
    rcases List.eq_nil_or_concat' back with rfl | ⟨inner, tail, rfl⟩
    · have fitting := (atTail block (by simp [whole])).2 (address ▸ ends)
      omega
    · -- A block that fills all of the space below the address leaves none to the tail.
      have tailMember : tail ∈ values nodes := by simp [whole]
      have above := ends_above tail _ (owns.sized tail tailMember) (later tail (by simp))
      have ended := block.segment_stop (owns.sized block member)
      have tailBound := tail.address.toNat_lt
      rcases apart tail tailMember with before | behind
      · have ends : tail.segment.stop ≤ (dataAddress hexFile field).toNat := before
        omega
      · have begins : (dataAddress hexFile field).toNat + payload.length ≤ tail.address.toNat :=
          behind
        omega
  · obtain rfl := route_accepts _ _ _ _ _ added.route owns.sized apart
    rw [if_pos rfl] at parsed
    obtain ⟨_, base, sameMode, ending, _⟩ := same_header_fields _ _ added.header
    refine ⟨changed, _, parsed, ⟨values after, ⟨after, ?_, rfl⟩, ?_⟩, ?_, base, sameMode, ending⟩
    · exact owns_congr changed relinked _ after added.owns rfl rfl
    · rw [← address]
      exact route_image _ _ _ _ added.route apart genuine
    · rw [UInt32.toNat_add, UInt32.toNat_ofNat_of_lt' (by rw [UInt32.size]; omega),
        Nat.mod_eq_of_lt total]

/-- Nothing is stored at the end of the last block. No block starts behind the last one. -/
theorem silent_behind_tail (front : List Block) (tail : Block)
    (ascending : Ascending (segments (front ++ [tail]))) :
    image (segments (front ++ [tail])) tail.segment.stop = none := by
  apply (image_none_iff _ _).mpr
  intro segment member
  rw [segments_append, segments_cons] at member ascending
  have before := (ascending_split _ [] _).mp ascending
  rcases List.mem_append.mp member with inFront | atEnd
  · have ends := before.2.1 segment inFront
    have spans := tail.segment.start_le_stop
    exact Or.inr (by omega)
  · rw [List.mem_singleton.mp atEnd]
    exact Or.inr (Nat.le_refl _)

/-- A tail that ends 2^32 above the address and gets the bytes maps them in the wrong place:
the position behind it is new in the map but not part of the record. -/
theorem wrapped_tail_differs (first : Nat) (payload : List u8) (front : List Block) (tail : Block)
    (positive : 1 ≤ payload.length) (count : payload.length ≤ 255)
    (ascending : Ascending (segments (front ++ [tail])))
    (above : tail.segment.stop = first + 2 ^ 32) :
    image (segments (front ++ [tail.extend payload])) tail.segment.stop ≠
      overlay ⟨first, payload⟩ (image (segments (front ++ [tail]))) tail.segment.stop := by
  have silent := silent_behind_tail front tail ascending
  have beyond : (⟨first, payload⟩ : Segment u8).at? tail.segment.stop = none := by
    refine (Segment.at_none_iff _ _).mpr (Or.inr ?_)
    simp only [Segment.stop] at above ⊢
    omega
  intro unmapped
  rw [overlay, beyond, silent] at unmapped
  rcases (image_none_iff _ _).mp unmapped (tail.extend payload).segment (by simp) with
    before | behind
  · have spans := tail.segment.start_le_stop
    simp only [extend_segment, Block.segment_start] at before spans
    omega
  · simp only [Segment.stop, extend_segment, List.length_append, Block.segment_start,
      Block.segment_items] at behind
    omega

/-- A record that is taken over fits: a longer one is refused, a wrapped total is
smaller than before, and a tail that ends 2^32 above the address would get the bytes
instead of the address. -/
theorem taken_over_fits (changed : Heap Block) (relinked : IntelHexFormat)
    (mode : hexFile.fileMode = .linear) (owns : Owns heap hexFile nodes)
    (generous : heap.Generous) (ascending : Ascending (segments (values nodes)))
    (positive : 1 ≤ payload.length) (count : payload.length ≤ 255)
    (room : hexFile.addressBase.toNat + field.toNat + payload.length ≤ 2 ^ 32)
    (spells : SpellsLine (recordBytes 0 field payload) line)
    (returned : parseOneLine heap hexFile line data = .ok (true, changed, relinked))
    (taken : TakenOver hexFile (values nodes) field payload changed relinked) :
    RecordFits hexFile (values nodes) field payload := by
  obtain ⟨⟨blocks, ⟨held, heldOwns, rfl⟩, mapped⟩, total, _⟩ := taken
  have address : (dataAddress hexFile field).toNat = hexFile.addressBase.toNat + field.toNat := by
    rw [data_address, Nat.mod_eq_of_lt (by omega)]
  have short : payload.length ≤ 251 := by
    by_contra long
    have refused := (parse_record_line heap hexFile line 0 field payload data spells count).2
      (by omega)
    rw [refused] at returned
    simp at returned
  refine ⟨short, ?_, ?_⟩
  · have bound := relinked.totalLength.toNat_lt
    omega
  rcases data_record_outcome heap hexFile nodes field payload line data mode owns generous short
    room spells with ⟨fault, _⟩ | ⟨accepted, others, following, after, parsed, added⟩
  · rw [fault] at returned
    exact absurd returned (by simp)
  · rw [parsed] at returned
    obtain ⟨rfl, rfl, linked⟩ : accepted = true ∧ others = changed ∧ _ = relinked := by
      simpa only [Except.ok.injEq, Prod.mk.injEq] using returned
    rw [if_pos rfl] at linked
    have same : held = after :=
      chain_unique others _ _ _ heldOwns.chain (by rw [← linked]; exact added.owns.chain)
    subst same
    intro tail last
    obtain ⟨front, whole⟩ : ∃ front, values nodes = front ++ [tail] := by
      obtain ⟨front, same⟩ := List.getLast?_eq_some_iff.mp last
      exact ⟨front, same⟩
    have tailSized := owns.sized tail (by simp [whole])
    have touches : ∀ offset, tail.segment.stop = (dataAddress hexFile field).toNat + offset →
        offset = 0 ∨ offset = 2 ^ 32 → values held = front ++ [tail.extend payload] := by
      intro offset ends kinds
      have touching : tail.wrappedEnd = dataAddress hexFile field := by
        rw [← UInt32.toNat_inj, tail.wrapped_end_mod tailSized, ends]
        have bound := (dataAddress hexFile field).toNat_lt
        rcases kinds with rfl | rfl <;> omega
      exact (route_tail _ _ front _ tail true (whole ▸ added.route) touching).2
    constructor
    · intro above
      have extended := touches (2 ^ 32) (address ▸ above) (Or.inr rfl)
      have unmapped := mapped tail.segment.stop
      rw [whole] at ascending
      rw [extended, whole] at unmapped
      exact wrapped_tail_differs _ payload front tail positive count ascending above unmapped
    · intro ends
      have extended := touches 0 (by omega) (Or.inl rfl)
      have fitting := added.owns.sized (tail.extend payload) (by simp [extended])
      rw [Block.Sized, Block.extend, List.length_append, tailSized] at fitting
      have bound := (tail.length + UInt32.ofNat payload.length).toNat_lt
      simp only at fitting
      omega

/-- A data record line below 2^32 that meets no block is accepted and taken over exactly when it
fits. Proof: the line decodes to its record if the array has room, and then one call of `AddBlock`
decides. -/
theorem data_record_accepted (blocks : List Block) (mode : hexFile.fileMode = .linear)
    (holds : Holds heap hexFile blocks) (generous : heap.Generous)
    (ascending : Ascending (segments blocks)) (positive : 1 ≤ payload.length)
    (count : payload.length ≤ 255)
    (room : hexFile.addressBase.toNat + field.toNat + payload.length ≤ 2 ^ 32)
    (apart : ∀ block ∈ blocks,
      block.segment.Apart ⟨hexFile.addressBase.toNat + field.toNat, payload⟩)
    (spells : SpellsLine (recordBytes 0 field payload) line) :
    (∃ changed relinked, parseOneLine heap hexFile line data = .ok (true, changed, relinked) ∧
      TakenOver hexFile blocks field payload changed relinked) ↔
      RecordFits hexFile blocks field payload := by
  obtain ⟨nodes, owns, rfl⟩ := holds
  constructor
  · rintro ⟨changed, relinked, returned, taken⟩
    exact taken_over_fits heap hexFile nodes field payload line data changed relinked mode owns
      generous ascending positive count room spells returned taken
  · exact fitting_taken_over heap hexFile nodes field payload line data mode owns generous ascending
      positive room apart spells

end DataRecord

/-- The line that spells bytes in upper-case digits. The writer prints such lines. -/
def spelledLine (bytes : List u8) : List u8 := code ':' :: (hexText bytes ++ [code '\n'])

/-- The line written for a record's bytes spells them. Its digits are in upper case and it ends
with a newline. -/
theorem spelled_line (bytes : List u8) : SpellsLine bytes (spelledLine bytes) :=
  ⟨_, hex_text_encodes bytes, rfl⟩

/-- Two blocks with room between them. A record may go in front of them, between them or
behind. -/
def parted : List Block := [⟨0, 2, [1, 2]⟩, ⟨32, 1, [3]⟩]

/-- One byte at 16 is taken over between them. The list has a block in front of it and one
behind. -/
theorem byte_between_accepted :
    ∃ changed relinked,
      parseOneLine (listHeap parted) (listFile 1) (spelledLine (recordBytes 0 16 [0xA5])) .zero =
        .ok (true, changed, relinked) ∧
      TakenOver (listFile 1) parted 16 [0xA5] changed relinked :=
  (data_record_accepted (listHeap parted) (listFile 1) 16 [0xA5]
    (spelledLine (recordBytes 0 16 [0xA5])) .zero parted rfl
    ⟨[(0, ⟨0, 2, [1, 2]⟩), (1, ⟨32, 1, [3]⟩)],
      ⟨⟨rfl, some 1, rfl, rfl, none, rfl, rfl⟩, rfl, by simp [Block.Sized]⟩, rfl⟩
    (fun _ => rfl) (by simp [parted, Ascending, Segment.stop]) (by decide) (by decide) (by decide)
    (by simp [parted, Segment.Apart, Segment.stop, listFile, IntelHexFormat.fresh,
      IntelHexFormat.zero])
    (spelled_line _)).mpr ⟨by decide, by decide, by decide⟩

/-- A record of 252 bytes at 0 is refused in the fresh state. Its text is longer than the array
has room for. -/
theorem longest_record_refused :
    ¬ ∃ changed relinked,
      parseOneLine ⟨[], fun _ => true⟩ .fresh (spelledLine (recordBytes 0 0 (List.replicate 252 0)))
        .zero = .ok (true, changed, relinked) := by
  rintro ⟨changed, relinked, returned⟩
  have refused := (parse_record_line ⟨[], fun _ => true⟩ .fresh
    (spelledLine (recordBytes 0 0 (List.replicate 252 0))) 0 0
    (List.replicate 252 0) .zero (spelled_line _) (by rw [List.length_replicate]; omega)).2
    (by rw [List.length_replicate]; omega)
  rw [refused] at returned
  simp at returned

end EffiLib.IntelHex
