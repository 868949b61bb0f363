import EffiLib.IntelHex.LoadedImage

/-!
# The last line without its newline

`ParseOneLine` cuts the last character of a line off, whatever it is. On a last line
without a newline this is a character of the record: the digits of the line spell other
bytes then, or one byte less. Both readings of the line differ in one byte of the array at
most, so they are rarely both accepted, and then they are the same record or differ by one
byte of payload.
-/

namespace EffiLib.IntelHex

open Buffers LinkedHeap Segments

/-- The newline character. `fgets` keeps it at the end of a line. -/
abbrev newline : u8 := code '\n'

/-- Whenever the file with a newline appended is loaded, the file itself is, with the same
blocks and the same fields. -/
def NewlineHarmless (heap : Heap Block) (content : List u8) (arrays : Nat → LocalBuffer) : Prop :=
  ∀ hexFile changed,
    intelHexFileInput heap (some (content ++ [newline])) arrays = .ok (some hexFile, changed) →
    ∃ other remaining, intelHexFileInput heap (some content) arrays = .ok (some other, remaining) ∧
      SameImage remaining other changed hexFile

/-- The last line, the content of the array it is decoded to, and the state in front of it, if
no earlier line ends the reading. -/
def InFrontOfLast (heap : Heap Block) (content : List u8) (arrays : Nat → LocalBuffer)
    (before : Heap Block) (hexFile : IntelHexFormat) (last : List u8) (data : LocalBuffer) : Prop :=
  heap.grants 0 = true ∧ ∃ earlier, fileLines content = earlier ++ [last] ∧
    data = arrays earlier.length ∧
    parseLines heap.request.2 .fresh (numbered earlier arrays) = .ok (true, before, hexFile)

/-- With and without its newline the line spells the same record, or no record that is not
inert. -/
def NewlineIdle (before : Heap Block) (hexFile : IntelHexFormat) (last : List u8)
    (data : LocalBuffer) : Prop :=
  spelledRecord last data = spelledRecord (last ++ [newline]) data ∨
    ∀ record, spelledRecord last data = some record ∨
      spelledRecord (last ++ [newline]) data = some record → Inert before hexFile record

/-! ## One more character -/

/-- One more digit changes one byte of the array. It fills the high half of a new byte or the low
half of the last one. -/
theorem packed_snoc (values array : List u8) (value : u8)
    (room : values.length / 2 < array.length) :
    ∃ byte, pack (values ++ [value]) ++ array.drop (pack (values ++ [value])).length =
      (pack values ++ array.drop (pack values).length).set (values.length / 2) byte := by
  induction values using pack.induct generalizing array with
  | case1 =>
    obtain ⟨first, others, rfl⟩ := List.exists_cons_of_length_pos room
    exact ⟨value <<< 4, rfl⟩
  | case2 high =>
    obtain ⟨first, others, rfl⟩ := List.exists_cons_of_length_pos (by simpa using room)
    exact ⟨(high <<< 4) ||| value, by simp [pack]⟩
  | case3 high low rest inductionHypothesis =>
    have half : (high :: low :: rest).length / 2 = rest.length / 2 + 1 := by
      rw [List.length_cons, List.length_cons]
      omega
    rw [half] at room ⊢
    obtain ⟨first, others, rfl⟩ := List.exists_cons_of_length_pos (Nat.zero_lt_of_lt room)
    obtain ⟨byte, same⟩ := inductionHypothesis others (by simpa using room)
    exact ⟨byte, congrArg (((high <<< 4) ||| low) :: ·) same⟩

/-- One more character changes one byte of the array at most. A character that is no digit changes
none. -/
theorem decoded_snoc (data : LocalBuffer) (text : List u8) (ch : u8) (short : text.length < 512) :
    ∃ byte, decoded data (text ++ [ch]) =
      (decoded data text).set ((digits text).length / 2) byte := by
  have fewer := digits_length text
  cases digit : hexDigit ch with
  | none =>
    have same : digits (text ++ [ch]) = digits text := by simp [digits, digit]
    have inside : (digits text).length / 2 < (decoded data text).length := by
      rw [decoded_length data text (Nat.le_of_lt short)]
      omega
    refine ⟨(decoded data text)[(digits text).length / 2], ?_⟩
    rw [List.set_getElem_self, decoded, decoded, same]
  | some value =>
    have longer : digits (text ++ [ch]) = digits text ++ [value] := by simp [digits, digit]
    rw [decoded, decoded, longer]
    exact packed_snoc (digits text) data.bytes value (by rw [data.size]; omega)

/-- A byte that keeps the checksum zero is the one that was there. The sum determines each byte
from the others. -/
theorem checksum_set (bytes : List u8) (index : Nat) (byte : u8) (inside : index < bytes.length)
    (sum : checksum bytes = 0) (other : checksum (bytes.set index byte) = 0) :
    bytes.set index byte = bytes := by
  obtain ⟨front, old, back, rfl, rfl⟩ :
      ∃ front old back, bytes = front ++ old :: back ∧ front.length = index :=
    ⟨bytes.take index, bytes[index], bytes.drop (index + 1), by simp,
      List.length_take_of_le (Nat.le_of_lt inside)⟩
  have split : ∀ middle : u8, checksum (front ++ middle :: back) =
      checksum front + (middle + checksum back) := by
    intro middle
    rw [checksum_append, ← List.singleton_append, checksum_append, checksum_single]
  rw [List.set_append_right _ _ (Nat.le_refl _), Nat.sub_self, List.set_cons_zero] at other ⊢
  rw [split] at sum other
  have same := (UInt8.add_right_inj _).mp (other.trans sum.symm)
  rw [(UInt8.add_left_inj _).mp same]

/-! ## Two readings of one line -/

/-- If a text passes the checks with and without its last character, it is the same record or
one with a byte of payload more. -/
theorem both_spelled (data : LocalBuffer) (text : List u8) (ch : u8) (long : 9 ≤ text.length)
    (first : TextChecks data text) (second : TextChecks data (text ++ [ch])) :
    recordOf (decoded data (text ++ [ch])) = recordOf (decoded data text) ∨
    ((recordOf (decoded data (text ++ [ch]))).kind = (recordOf (decoded data text)).kind ∧
      (recordOf (decoded data (text ++ [ch]))).field = (recordOf (decoded data text)).field ∧
      ∃ byte, (recordOf (decoded data (text ++ [ch]))).payload =
        (recordOf (decoded data text)).payload ++ [byte]) := by
  obtain ⟨_, firstCount, firstSum⟩ := first
  obtain ⟨short, secondCount, secondSum⟩ := second
  have fewer := digits_length text
  rw [List.length_append, List.length_singleton] at short secondCount secondSum
  have size := decoded_length data text (by omega)
  obtain ⟨byte, changed⟩ := decoded_snoc data text ch (by omega)
  rw [changed] at secondCount secondSum ⊢
  generalize decoded data text = array at firstCount firstSum secondCount secondSum size ⊢
  by_cases odd : text.length % 2 = 1
  · -- As many bytes as before: the one that was changed is among those that were summed.
    left
    have half : (text.length + 1 + 1) / 2 = (text.length + 1) / 2 := by omega
    rw [half, List.take_set] at secondSum
    have same := checksum_set _ _ byte (by rw [List.length_take]; omega) firstSum secondSum
    have split := List.take_append_drop ((text.length + 1) / 2)
      (array.set ((digits text).length / 2) byte)
    rw [List.take_set, same, List.drop_set_of_lt (by omega), List.take_append_drop] at split
    rw [← split]
  · -- One byte more: the count is the byte that was changed.
    right
    have half : (text.length + 1 + 1) / 2 = (text.length + 1) / 2 + 1 := by omega
    rw [half] at secondCount
    have atCount : (digits text).length / 2 = 0 := by
      by_contra behind
      rw [List.getD_eq_getElem?_getD, List.getElem?_set_ne behind,
        ← List.getD_eq_getElem?_getD] at secondCount
      omega
    obtain ⟨count, rest, rfl⟩ := List.exists_cons_of_length_pos (by omega : 0 < array.length)
    rw [atCount, List.set_cons_zero] at secondCount ⊢
    rw [List.getD_cons_zero] at firstCount secondCount
    rw [List.length_cons] at size
    have grown : byte.toNat = count.toNat + 1 := by omega
    have inside : count.toNat < (rest.drop 3).length := by
      rw [List.length_drop]
      omega
    refine ⟨rfl, rfl, (rest.drop 3)[count.toNat], ?_⟩
    have payloads : payloadOf (byte :: rest) = (rest.drop 3).take byte.toNat := rfl
    have payload : payloadOf (count :: rest) = (rest.drop 3).take count.toNat := rfl
    simp only [recordOf, payloads, payload, grown]
    exact List.take_succ_eq_append_getElem inside

/-- What a record adds is the part behind 2^32, or as many cells as bytes with its first byte
at its address. -/
theorem added_cells_cases (hexFile : IntelHexFormat) (field : u16) (payload : List u8)
    (cells : Multiset (u32 × u8)) (added : AddedCells hexFile field payload cells) :
    (hexFile.addressBase.toNat + field.toNat < 2 ^ 32 ∧
      2 ^ 32 < hexFile.addressBase.toNat + field.toNat + payload.length ∧
      cells = rangeCells 0 (payload.drop (2 ^ 32 - (hexFile.addressBase.toNat + field.toNat)))) ∨
    (Multiset.card cells = payload.length ∧
      ∀ byte rest, payload = byte :: rest → (dataAddress hexFile field, byte) ∈ cells) := by
  simp only [AddedCells] at added
  split_ifs at added with crossing
  · rcases added with low | rfl
    · exact Or.inl ⟨crossing.1, crossing.2, low⟩
    · right
      obtain ⟨split, some⟩ : ∃ split, 2 ^ 32 - (hexFile.addressBase.toNat + field.toNat) =
          split + 1 := ⟨2 ^ 32 - (hexFile.addressBase.toNat + field.toNat) - 1, by omega⟩
      rw [some]
      constructor
      · rw [Multiset.card_add, range_cells_card, range_cells_card, List.length_take,
          List.length_drop]
        omega
      · rintro byte rest rfl
        exact Multiset.mem_add.mpr (Or.inl (range_cell_first _ byte _))
  · right
    rw [added]
    refine ⟨range_cells_card _ _, ?_⟩
    rintro byte rest rfl
    exact range_cell_first _ byte rest

/-- The two cannot add the same cells: there is one more, or the first byte is missing. The
readings are of one record and of the same one with a byte behind it. -/
theorem longer_cells (hexFile : IntelHexFormat) (field : u16) (payload : List u8) (byte : u8)
    (cells : Multiset (u32 × u8)) (short : payload.length ≤ 251)
    (first : AddedCells hexFile field payload cells)
    (second : AddedCells hexFile field (payload ++ [byte]) cells) : False := by
  have longer : (payload ++ [byte]).length = payload.length + 1 := by simp
  rcases added_cells_cases hexFile field _ cells second with ⟨below, crossing, low⟩ | ⟨count, _⟩
  · have size : Multiset.card cells =
        payload.length + 1 - (2 ^ 32 - (hexFile.addressBase.toNat + field.toNat)) := by
      rw [low, range_cells_card, List.length_drop, longer]
    rw [longer] at crossing
    rcases added_cells_cases hexFile field _ cells first with ⟨_, further, part⟩ | ⟨count, starts⟩
    · rw [part, range_cells_card, List.length_drop] at size
      omega
    · obtain ⟨head, rest, rfl⟩ := List.exists_cons_of_length_pos (by omega : 0 < payload.length)
      have member := starts head rest rfl
      rw [low] at member
      obtain ⟨offset, inside, top⟩ := range_cell_address _ _ _ member
      rw [List.length_drop, longer] at inside
      have address := congrArg UInt32.toNat top
      rw [data_address, UInt32.zero_add, UInt32.toNat_ofNat_of_lt' (by rw [UInt32.size]; omega)]
        at address
      omega
  · rcases added_cells_cases hexFile field _ cells first with ⟨_, further, part⟩ | ⟨other, _⟩
    · rw [part, range_cells_card, List.length_drop] at count
      omega
    · omega

/-- An update that changes something has the count of its type. Two readings that differ in their
count cannot both make one. -/
theorem update_count (hexFile update : IntelHexFormat) (record : CheckedRecord)
    (updates : record.update hexFile = some update) (differs : update ≠ hexFile) :
    record.payload.length =
      if record.kind = 4 then 2 else if record.kind = 3 ∨ record.kind = 5 then 4 else 0 := by
  have guarded : ∀ required changed, record.guarded required changed = some update →
      record.payload.length = required := by
    intro required changed taken
    rw [CheckedRecord.guarded] at taken
    split_ifs at taken with holds
    exact holds.1
  unfold CheckedRecord.update at updates
  split_ifs at updates with eof segment start linear entry
  · simp [guarded _ _ updates, eof]
  · simp [guarded _ _ updates, segment]
  · simp [guarded _ _ updates, start]
  · simp [guarded _ _ updates, linear]
  · simp [guarded _ _ updates, entry]
  · exact absurd (Option.some.inj updates).symm differs

section Pairs

variable (heap : Heap Block) (hexFile : IntelHexFormat) (nodes : List BlockNode)

/-- Two records of which one has a byte more lead to the same image only if both are inert. The
byte more would add a cell to one image. -/
theorem longer_inert (first second : CheckedRecord) (byte : u8) (owns : Owns heap hexFile nodes)
    (short : second.payload.length ≤ 251) (kind : second.kind = first.kind)
    (field : second.field = first.field) (payload : second.payload = first.payload ++ [byte])
    (accepted : Bool) (changed : Heap Block) (relinked : IntelHexFormat)
    (firstReturns : first.process heap hexFile = .ok (accepted, changed, relinked))
    (taken : Bool) (others : Heap Block) (following : IntelHexFormat)
    (secondReturns : second.process heap hexFile = .ok (taken, others, following))
    (same : SameImage changed relinked others following) :
    Inert heap hexFile first ∧ Inert heap hexFile second := by
  have longer : second.payload.length = first.payload.length + 1 := by simp [payload]
  have firstExactly := inert_exactly heap hexFile nodes first owns (by omega)
  have secondExactly := inert_exactly heap hexFile nodes second owns short
  by_cases firstInert : Inert heap hexFile first
  · obtain ⟨_, _, _, returned, image⟩ := firstExactly.mp firstInert
    obtain ⟨rfl, rfl, rfl⟩ : accepted = _ ∧ changed = _ ∧ relinked = _ := by
      simpa using firstReturns.symm.trans returned
    exact ⟨firstInert, secondExactly.mpr ⟨taken, others, following, secondReturns,
      same.1.symm.trans image.1, same.2.symm.trans image.2⟩⟩
  · by_cases secondInert : Inert heap hexFile second
    · obtain ⟨_, _, _, returned, image⟩ := secondExactly.mp secondInert
      obtain ⟨rfl, rfl, rfl⟩ : taken = _ ∧ others = _ ∧ following = _ := by
        simpa using secondReturns.symm.trans returned
      exact absurd (firstExactly.mpr ⟨accepted, changed, relinked, firstReturns,
        same.1.trans image.1, same.2.trans image.2⟩) firstInert
    · exfalso
      by_cases dataKind : first.kind = 0
      · -- Both have added cells, and not the same ones.
        obtain ⟨after, cells, owned, added, stored, _⟩ := data_cells heap hexFile nodes first owns
          (by omega) dataKind firstInert accepted changed relinked firstReturns
        obtain ⟨later, more, ownedLater, addedLater, storedLater, _⟩ := data_cells heap hexFile
          nodes second owns short (kind.trans dataKind) secondInert taken others following
          secondReturns
        have lists := same.1
        rw [block_list changed relinked after owned, block_list others following later ownedLater]
          at lists
        rw [Except.ok.inj lists, storedLater] at stored
        obtain rfl : more = cells := add_right_cancel stored
        rw [field, payload] at addedLater
        exact longer_cells hexFile first.field first.payload byte more (by omega) added addedLater
      · -- Both would be accepted control records of one type, with different counts.
        have secondKind : second.kind ≠ 0 := kind ▸ dataKind
        rw [Inert, if_neg dataKind, not_or] at firstInert
        rw [Inert, if_neg secondKind, not_or] at secondInert
        obtain ⟨update, updates⟩ := Option.ne_none_iff_exists'.mp firstInert.1
        obtain ⟨change, changes⟩ := Option.ne_none_iff_exists'.mp secondInert.1
        have firstCount := update_count hexFile update first updates fun equal =>
          firstInert.2 (equal ▸ updates)
        have secondCount := update_count hexFile change second changes fun equal =>
          secondInert.2 (equal ▸ changes)
        rw [kind, ← firstCount] at secondCount
        omega

end Pairs

/-! ## The last line of a file -/

/-- Behind a zero the newline is not seen; otherwise the text is longer by the character that
was cut off. -/
theorem newline_texts (last : List u8) :
    cString (last ++ [newline]) = cString last ∨
      (IsRecord last → IsRecord (last ++ [newline]) → 9 ≤ (recordText last).length ∧
        ∃ ch, recordText (last ++ [newline]) = recordText last ++ [ch]) := by
  have longer : cString (last ++ [newline]) =
      if (cString last).length = last.length then last ++ [newline] else cString last :=
    List.takeWhile_append
  by_cases plain : (cString last).length = last.length
  · rw [if_pos plain] at longer
    have whole : cString last = last := (last.takeWhile_prefix (· ≠ 0)).eq_of_length plain
    right
    intro record _
    obtain ⟨ch, parts, long⟩ := line_parts (cString last) record.1 record.2
    have shape : last = code ':' :: (recordText last ++ [ch]) := whole.symm.trans parts
    refine ⟨long, ch, ?_⟩
    calc
      recordText (last ++ [newline]) = ((last ++ [newline]).drop 1).dropLast := by
        rw [recordText, longer, middle]
      _ = (((code ':' :: (recordText last ++ [ch])) ++ [newline]).drop 1).dropLast :=
        congrArg (fun line => ((line ++ [newline]).drop 1).dropLast) shape
      _ = recordText last ++ [ch] := by
        rw [List.cons_append, List.drop_succ_cons, List.drop_zero, List.dropLast_concat]
  · rw [if_neg plain] at longer
    exact Or.inl longer

/-- With and without its newline a line spells the same record, or one with a byte more. The
newline can complete a half byte that the line has left at its end. -/
theorem records_paired (last : List u8) (data : LocalBuffer) (first second : CheckedRecord)
    (spelled : spelledRecord last data = some first)
    (longer : spelledRecord (last ++ [newline]) data = some second) :
    first = second ∨ (second.kind = first.kind ∧ second.field = first.field ∧
      ∃ byte, second.payload = first.payload ++ [byte]) := by
  obtain ⟨record, checks, rfl⟩ := (spelled_iff _ _ _).mp spelled
  obtain ⟨recordToo, checksToo, rfl⟩ := (spelled_iff _ _ _).mp longer
  rcases newline_texts last with same | texts
  · left
    rw [recordArray, recordArray, recordText, recordText, same]
  · obtain ⟨long, ch, text⟩ := texts record recordToo
    rw [text] at checksToo
    rw [recordArray, recordArray, text]
    exact (both_spelled data (recordText last) ch long checks checksToo).imp Eq.symm id

section Reading

variable (heap : Heap Block) (hexFile : IntelHexFormat) (nodes : List BlockNode) (last : List u8)
  (data : LocalBuffer)

/-- A line that spells no record but an inert one returns and leaves the image. Refused lines and
lines that are passed over are among them. -/
theorem inert_line (line : List u8) (owns : Owns heap hexFile nodes)
    (inert : ∀ record, spelledRecord line data = some record → Inert heap hexFile record) :
    ∃ accepted changed relinked, parseOneLine heap hexFile line data =
      .ok (accepted, changed, relinked) ∧ SameImage changed relinked heap hexFile := by
  obtain ⟨processed, passed⟩ := parse_spelled heap hexFile line data
  cases spelled : spelledRecord line data with
  | none =>
    obtain ⟨accepted, result⟩ := passed spelled
    exact ⟨accepted, heap, hexFile, result, rfl, rfl⟩
  | some record =>
    obtain ⟨result, short⟩ := processed record spelled
    rw [result]
    exact (inert_exactly heap hexFile nodes record owns short).mp (inert record spelled)

/-- If the line returns and leaves the image, it spells no other record. A record that is not
inert changes the image. -/
theorem image_line (line : List u8) (owns : Owns heap hexFile nodes) (accepted : Bool)
    (changed : Heap Block) (relinked : IntelHexFormat)
    (returned : parseOneLine heap hexFile line data = .ok (accepted, changed, relinked))
    (same : SameImage changed relinked heap hexFile) (record : CheckedRecord)
    (spelled : spelledRecord line data = some record) : Inert heap hexFile record := by
  obtain ⟨processed, _⟩ := parse_spelled heap hexFile line data
  obtain ⟨result, short⟩ := processed record spelled
  exact (inert_exactly heap hexFile nodes record owns short).mpr
    ⟨accepted, changed, relinked, result.symm.trans returned, same⟩

/-- If both readings of a line return with the same image, the newline is idle. Proof: by the
records that the two readings spell, which differ in one byte of the array at most. -/
theorem same_image_idle (owns : Owns heap hexFile nodes) (accepted : Bool) (changed : Heap Block)
    (relinked : IntelHexFormat)
    (returned : parseOneLine heap hexFile last data = .ok (accepted, changed, relinked))
    (taken : Bool) (others : Heap Block) (following : IntelHexFormat)
    (returns : parseOneLine heap hexFile (last ++ [newline]) data = .ok (taken, others, following))
    (same : SameImage changed relinked others following) : NewlineIdle heap hexFile last data := by
  obtain ⟨processed, passed⟩ := parse_spelled heap hexFile last data
  obtain ⟨processes, passes⟩ := parse_spelled heap hexFile (last ++ [newline]) data
  cases first : spelledRecord last data with
  | none =>
    obtain ⟨_, result⟩ := passed first
    obtain ⟨_, rfl, rfl⟩ : _ = accepted ∧ heap = changed ∧ hexFile = relinked := by
      simpa using result.symm.trans returned
    refine Or.inr fun record spelled => image_line heap hexFile nodes data _ owns taken others
      following returns same.symm record (spelled.resolve_left ?_)
    simp [first]
  | some record =>
    cases second : spelledRecord (last ++ [newline]) data with
    | none =>
      obtain ⟨_, result⟩ := passes second
      obtain ⟨_, rfl, rfl⟩ : _ = taken ∧ heap = others ∧ hexFile = following := by
        simpa using result.symm.trans returns
      refine Or.inr fun other spelled => image_line heap hexFile nodes data _ owns accepted changed
        relinked returned same other (spelled.resolve_right ?_)
      rw [second]
      simp
    | some other =>
      obtain ⟨result, _⟩ := processed record first
      obtain ⟨results, short⟩ := processes other second
      rcases records_paired last data record other first second with
        rfl | ⟨kind, field, byte, payload⟩
      · exact Or.inl (first.trans second.symm)
      · obtain ⟨inert, idle⟩ := longer_inert heap hexFile nodes record other byte owns short kind
          field payload accepted changed relinked (result.symm.trans returned) taken others
          following (results.symm.trans returns) same
        refine Or.inr ?_
        rintro spelled (here | here)
        · exact Option.some.inj (first.symm.trans here) ▸ inert
        · exact Option.some.inj (second.symm.trans here) ▸ idle

/-- If the newline is idle and the line returns with it, it returns without it, with the same
image. -/
theorem idle_same_image (owns : Owns heap hexFile nodes) (idle : NewlineIdle heap hexFile last data)
    (taken : Bool) (others : Heap Block) (following : IntelHexFormat)
    (returns : parseOneLine heap hexFile (last ++ [newline]) data =
      .ok (taken, others, following)) :
    ∃ accepted changed relinked, parseOneLine heap hexFile last data =
      .ok (accepted, changed, relinked) ∧ SameImage changed relinked others following := by
  rcases idle with same | inert
  · obtain ⟨processed, passed⟩ := parse_spelled heap hexFile last data
    obtain ⟨processes, passes⟩ := parse_spelled heap hexFile (last ++ [newline]) data
    cases spelled : spelledRecord last data with
    | none =>
      obtain ⟨accepted, result⟩ := passed spelled
      obtain ⟨_, results⟩ := passes (same.symm.trans spelled)
      obtain ⟨_, rfl, rfl⟩ : _ = taken ∧ heap = others ∧ hexFile = following := by
        simpa using results.symm.trans returns
      exact ⟨accepted, heap, hexFile, result, rfl, rfl⟩
    | some record =>
      obtain ⟨result, _⟩ := processed record spelled
      obtain ⟨results, _⟩ := processes record (same.symm.trans spelled)
      exact ⟨taken, others, following, result.trans (results.symm.trans returns), rfl, rfl⟩
  · obtain ⟨accepted, changed, relinked, result, image⟩ := inert_line heap hexFile nodes data last
      owns fun record spelled => inert record (Or.inl spelled)
    obtain ⟨_, _, _, results, images⟩ := inert_line heap hexFile nodes data (last ++ [newline])
      owns fun record spelled => inert record (Or.inr spelled)
    obtain ⟨rfl, rfl, rfl⟩ : _ = taken ∧ _ = others ∧ _ = following := by
      simpa using results.symm.trans returns
    exact ⟨accepted, changed, relinked, result, image.trans images.symm⟩

end Reading

/-- A load reads the lines in front of the last one and then the last one, if it comes to
it. -/
theorem input_last (heap : Heap Block) (content : List u8) (arrays : Nat → LocalBuffer)
    (earlier : List (List u8)) (last : List u8) (granted : heap.grants 0 = true)
    (lines : fileLines content = earlier ++ [last]) :
    intelHexFileInput heap (some content) arrays = (do
      let (accepted, before, hexFile) ← parseLines heap.request.2 .fresh (numbered earlier arrays)
      if accepted then do
        let (_, changed, relinked) ← parseOneLine before hexFile last (arrays earlier.length)
        .ok (some relinked, changed)
      else .ok (some hexFile, before)) := by
  have split : numbered (earlier ++ [last]) arrays =
      numbered earlier arrays ++ [(last, arrays earlier.length)] := by
    rw [numbered, List.mapIdx_append]
    simp [numbered]
  have answer : heap.request.1 = true := granted
  simp only [intelHexFileInput, answer, Bool.true_eq_false, if_false]
  rw [lines, split, parse_lines_append]
  cases parseLines heap.request.2 .fresh (numbered earlier arrays) with
  | error fault => rfl
  | ok result =>
    obtain ⟨accepted, before, hexFile⟩ := result
    cases accepted with
    | false => rfl
    | true =>
      simp only [ok_bind, if_true, parseLines]
      cases parseOneLine before hexFile last (arrays earlier.length) with
      | error fault => rfl
      | ok result =>
        obtain ⟨accepted, changed, relinked⟩ := result
        cases accepted <;> rfl

/-- A last line without newline and shorter than the array is not whole. So a newline that is
appended comes to this line. -/
theorem last_unfinished (content : List u8) (earlier : List (List u8)) (last : List u8)
    (lines : fileLines content = earlier ++ [last]) (short : last.length < 1023)
    (unended : content.getLast? ≠ some newline) : ¬ WholeLine last := by
  rintro (ended | full)
  · have whole := file_lines_whole content
    rw [lines, List.flatten_append, List.flatten_singleton] at whole
    rw [← whole, List.getLast?_append, ended] at unended
    exact unended rfl
  · omega

/-- With a newline appended a file has the same lines, and the last of them has the newline. No
line is added. -/
theorem lines_with_newline (content : List u8) (earlier : List (List u8)) (last : List u8)
    (lines : fileLines content = earlier ++ [last]) (short : last.length < 1023)
    (unended : content.getLast? ≠ some newline) :
    fileLines (content ++ [newline]) = earlier ++ [last ++ [newline]] := by
  have room : 1023 - last.length = 1022 - last.length + 1 := by omega
  rw [file_lines_extended content [newline] earlier last lines
    (last_unfinished content earlier last lines short unended), room]
  rfl

section Files

variable (heap : Heap Block) (content : List u8) (arrays : Nat → LocalBuffer)
  (earlier : List (List u8)) (last : List u8)

/-- If the newline is harmless it is idle, whenever the last line returns with it. Both loads are
the same up to this line. -/
theorem harmless_idle (lines : fileLines content = earlier ++ [last])
    (longer : fileLines (content ++ [newline]) = earlier ++ [last ++ [newline]])
    (harmless : NewlineHarmless heap content arrays) (before : Heap Block)
    (hexFile : IntelHexFormat) (other : List u8) (data : LocalBuffer)
    (reached : InFrontOfLast heap content arrays before hexFile other data)
    (returns : ∃ result, parseOneLine before hexFile (other ++ [newline]) data = .ok result) :
    NewlineIdle before hexFile other data := by
  obtain ⟨granted, front, read, rfl, parsed⟩ := reached
  obtain ⟨⟨taken, changed, relinked⟩, returns⟩ := returns
  obtain ⟨rfl, same⟩ := List.append_inj' (lines.symm.trans read) rfl
  obtain rfl := List.singleton_inj.mp same
  have loaded := input_last heap content arrays earlier last granted lines
  have loadedLonger := input_last heap _ arrays earlier _ granted longer
  simp only [parsed, ok_bind, if_true] at loaded loadedLonger
  rw [returns] at loadedLonger
  obtain ⟨following, remaining, input, image⟩ := harmless relinked changed loadedLonger
  rw [loaded] at input
  obtain ⟨⟨accepted, others, final⟩, returned, output⟩ := (bind_ok_iff _ _ _).mp input
  obtain ⟨rfl, rfl⟩ : final = following ∧ others = remaining := by simpa using output
  obtain ⟨nodes, owns⟩ := lines_own heap.request.2 before .fresh hexFile [] _ true
    (owns_nothing _ _ rfl rfl) parsed
  exact same_image_idle before hexFile nodes last _ owns accepted others final returned taken
    changed relinked returns image

/-- If it is idle in the state in front of the last line it is harmless. The last line is the only
one whose reading differs. -/
theorem idle_harmless (lines : fileLines content = earlier ++ [last])
    (longer : fileLines (content ++ [newline]) = earlier ++ [last ++ [newline]])
    (idle : ∀ before hexFile other data,
      InFrontOfLast heap content arrays before hexFile other data →
      (∃ result, parseOneLine before hexFile (other ++ [newline]) data = .ok result) →
        NewlineIdle before hexFile other data) :
    NewlineHarmless heap content arrays := by
  intro hexFile changed input
  by_cases granted : heap.grants 0 = true
  · have loaded := input_last heap content arrays earlier last granted lines
    rw [input_last heap _ arrays earlier _ granted longer] at input
    rw [loaded]
    obtain ⟨⟨accepted, before, state⟩, parsed, input⟩ := (bind_ok_iff _ _ _).mp input
    rw [parsed]
    cases accepted with
    | false =>
      obtain ⟨rfl, rfl⟩ : state = hexFile ∧ before = changed := by simpa using input
      exact ⟨state, before, rfl, rfl, rfl⟩
    | true =>
      obtain ⟨⟨taken, others, following⟩, returns, output⟩ := (bind_ok_iff _ _ _).mp input
      obtain ⟨rfl, rfl⟩ : following = hexFile ∧ others = changed := by simpa using output
      obtain ⟨nodes, owns⟩ := lines_own heap.request.2 before .fresh state [] _ true
        (owns_nothing _ _ rfl rfl) parsed
      have idles := idle before state last (arrays earlier.length)
        ⟨granted, earlier, lines, rfl, parsed⟩ ⟨_, returns⟩
      obtain ⟨accepted, remaining, other, returned, image⟩ := idle_same_image before state nodes
        last _ owns idles taken others following returns
      refine ⟨other, remaining, ?_, image⟩
      simp only [ok_bind, if_true]
      rw [returned]
      rfl
  · have denied : heap.request.1 = false := Bool.eq_false_of_not_eq_true granted
    simp [intelHexFileInput, denied] at input

end Files

/-- A missing final newline is harmless exactly if the newline is idle in the state in front of
the last line, in all loads that come to it and return. Proof: up to the last line both loads are
the same, and behind it there is nothing. -/
theorem newline_harmless_exactly (heap : Heap Block) (content : List u8)
    (arrays : Nat → LocalBuffer) (nonempty : content ≠ [])
    (short : ∀ line ∈ fileLines content, line.length < 1023)
    (unended : content.getLast? ≠ some newline) :
    NewlineHarmless heap content arrays ↔
      ∀ before hexFile last data, InFrontOfLast heap content arrays before hexFile last data →
        (∃ result, parseOneLine before hexFile (last ++ [newline]) data = .ok result) →
          NewlineIdle before hexFile last data := by
  obtain ⟨earlier, last, lines⟩ :=
    (List.eq_nil_or_concat' (fileLines content)).resolve_left
      (mt (file_lines_nil content).mp nonempty)
  have longer := lines_with_newline content earlier last lines
    (short last (by simp [lines])) unended
  exact ⟨harmless_idle heap content arrays earlier last lines longer,
    idle_harmless heap content arrays earlier last lines longer⟩

set_option maxRecDepth 8000 in
/-- A record whose last digit is a zero: the half byte already there is the whole one. So the two
lines spell one record. -/
theorem zero_digit_harmless :
    NewlineHarmless ⟨[], fun _ => true⟩ (":010000000FF0".toList.map code) (fun _ => .zero) := by
  have lines : fileLines (":010000000FF0".toList.map code) =
      [":010000000FF0".toList.map code] := rfl
  refine (newline_harmless_exactly ⟨[], fun _ => true⟩ (":010000000FF0".toList.map code)
    (fun _ => .zero) (by decide) ?_ (by decide)).mpr ?_
  · rw [lines]
    decide
  · rintro before hexFile last data ⟨_, earlier, read, rfl, _⟩ _
    obtain rfl : ":010000000FF0".toList.map code = last := by
      simpa using congrArg List.getLast? (lines.symm.trans read)
    have same : spelledRecord (":010000000FF0".toList.map code) .zero =
        spelledRecord (":010000000FF0".toList.map code ++ [newline]) .zero := by decide +kernel
    exact Or.inl same

set_option maxRecDepth 8000 in
/-- An end-of-file record loses the last digit of its checksum and is refused. So the structure
comes back as if no record had ended it. -/
theorem eof_without_newline :
    let content := ":00000001FF".toList.map code
    (content ≠ [] ∧ (∀ line ∈ fileLines content, line.length < 1023) ∧
      content.getLast? ≠ some newline) ∧
    ¬ NewlineHarmless ⟨[], fun _ => true⟩ content (fun _ => .zero) := by
  have lines : fileLines (":00000001FF".toList.map code) = [":00000001FF".toList.map code] := rfl
  refine ⟨⟨by decide, by rw [lines]; decide, by decide⟩, fun harmless => ?_⟩
  have accepted : intelHexFileInput ⟨[], fun _ => true⟩
      (some (":00000001FF".toList.map code ++ [newline])) (fun _ => .zero) =
      .ok (some { IntelHexFormat.fresh with endOfFile := true }, ⟨[], fun _ => true⟩) := rfl
  have refused : intelHexFileInput ⟨[], fun _ => true⟩ (some (":00000001FF".toList.map code))
      (fun _ => .zero) = .ok (some .fresh, ⟨[], fun _ => true⟩) := rfl
  obtain ⟨other, remaining, input, image⟩ := harmless _ _ accepted
  obtain ⟨rfl, rfl⟩ : IntelHexFormat.fresh = other ∧ ⟨[], fun _ => true⟩ = remaining := by
    simpa using refused.symm.trans input
  exact absurd image.2 (by decide)

end EffiLib.IntelHex
