import EffiLib.IntelHex.LoadedImage

/-!
# Lines behind the end-of-file record

The record sets a flag that the reading loop does not look at, and `ParseOneLine` returns
`TRUE` for it, so the lines behind it are read like those in front of it. They load nothing
exactly if none of them adds data and the start addresses come out as they were: the lines
are no records, control records, data records outside linear mode and empty ones at the end
of a block, up to one that is refused.
-/

namespace EffiLib.IntelHex

open Buffers LinkedHeap Segments

/-- The start addresses of both structures. They are announced by records of type 03 and type
05. -/
def SameStarts (hexFile other : IntelHexFormat) : Prop :=
  hexFile.startSegmentAddress = other.startSegmentAddress ∧
    hexFile.startLinearAddress = other.startLinearAddress

/-- Both loads return, with the same blocks, the same total and the same start addresses. Where
the nodes lie in memory is left out, and so is the mode. -/
def SameData (first second : Run (Option IntelHexFormat × Heap Block)) : Prop :=
  ∃ hexFile heap other otherHeap, first = .ok (some hexFile, heap) ∧
    second = .ok (some other, otherHeap) ∧
    blockList heap hexFile = blockList otherHeap other ∧
    hexFile.totalLength = other.totalLength ∧ SameStarts hexFile other

/-- The order of the two loads is immaterial. Each of the two loads is compared with the other. -/
theorem SameData.symm {first second : Run (Option IntelHexFormat × Heap Block)}
    (same : SameData first second) : SameData second first := by
  obtain ⟨hexFile, heap, other, otherHeap, left, right, blocks, total, segment, linear⟩ := same
  exact ⟨other, otherHeap, hexFile, heap, right, left, blocks.symm, total.symm, segment.symm,
    linear.symm⟩

/-- Loads may be compared through a third one. Both have to return, and so does the third. -/
theorem SameData.trans {first second third : Run (Option IntelHexFormat × Heap Block)}
    (early : SameData first second) (late : SameData second third) : SameData first third := by
  obtain ⟨hexFile, heap, other, otherHeap, left, right, blocks, total, segment, linear⟩ := early
  obtain ⟨next, nextHeap, last, lastHeap, again, final, lists, totals, segments, linears⟩ := late
  obtain ⟨rfl, rfl⟩ : other = next ∧ otherHeap = nextHeap := by simpa using right.symm.trans again
  exact ⟨hexFile, heap, last, lastHeap, left, final, blocks.trans lists, total.trans totals,
    segment.trans segments, linear.trans linears⟩

/-- The lines of the file end with a record of type 01, all of them whole and accepted; this
is the state behind them. -/
structure EndedByEof (heap : Heap Block) (front : List u8) (arrays : Nat → LocalBuffer)
    (before : Heap Block) (hexFile : IntelHexFormat) : Prop where
  granted : heap.grants 0 = true
  whole : ∀ line ∈ fileLines front, WholeLine line
  ended : ∃ earlier eof record, fileLines front = earlier ++ [eof] ∧
    spelledRecord eof (arrays earlier.length) = some record ∧ record.kind = 1
  accepted : parseLines heap.request.2 .fresh (numbered (fileLines front) arrays) =
    .ok (true, before, hexFile)

/-- A line that adds no data, whether it is accepted, and what it leaves to the next one. -/
inductive Leaves (heap : Heap Block) (hexFile : IntelHexFormat) (line : List u8)
    (data : LocalBuffer) : Bool → Heap Block → IntelHexFormat → Prop
  | passedOver (other : ¬ IsRecord line) : Leaves heap hexFile line data true heap hexFile
  | misspelled (record : IsRecord line) (unspelled : spelledRecord line data = none) :
      Leaves heap hexFile line data false heap hexFile
  | malformed (record : CheckedRecord) (spelled : spelledRecord line data = some record)
      (control : record.kind ≠ 0) (refused : record.update hexFile = none) :
      Leaves heap hexFile line data false heap hexFile
  | updated (record : CheckedRecord) (spelled : spelledRecord line data = some record)
      (control : record.kind ≠ 0) (update : IntelHexFormat)
      (updates : record.update hexFile = some update) :
      Leaves heap hexFile line data true heap update
  | unread (record : CheckedRecord) (spelled : spelledRecord line data = some record)
      (dataKind : record.kind = 0) (mode : hexFile.fileMode ≠ .linear) :
      Leaves heap hexFile line data true heap hexFile
  | unstored (record : CheckedRecord) (spelled : spelledRecord line data = some record)
      (dataKind : record.kind = 0) (mode : hexFile.fileMode = .linear)
      (refused : AddRefused heap hexFile
        (firstRange hexFile record.field record.payload.length).1
        (UInt32.ofNat (firstRange hexFile record.field record.payload.length).2)) :
      Leaves heap hexFile line data false heap hexFile
  | empty (record : CheckedRecord) (spelled : spelledRecord line data = some record)
      (dataKind : record.kind = 0) (mode : hexFile.fileMode = .linear)
      (nothing : record.payload = [])
      (appends : Appends heap hexFile (dataAddress hexFile record.field))
      (granted : heap.grants 0 = true) :
      Leaves heap hexFile line data true heap.request.2 hexFile

/-- The start segment address and the start linear address. The last records that announce them
decide. -/
def startAddresses (hexFile : IntelHexFormat) : u32 × u32 :=
  (hexFile.startSegmentAddress, hexFile.startLinearAddress)

/-- The start addresses behind a record: one of type 03 names the first, one of type 05 the
second. -/
def CheckedRecord.announced (record : CheckedRecord) (starts : u32 × u32) : u32 × u32 :=
  if record.kind = 3 then (bigEndianWord record.bytes, starts.2)
  else if record.kind = 5 then (starts.1, bigEndianWord record.bytes)
  else starts

/-- The start addresses behind a line. A line that spells no record leaves them. -/
def announcedBehind (starts : u32 × u32) (line : List u8) (data : LocalBuffer) : u32 × u32 :=
  (spelledRecord line data).elim starts fun record => record.announced starts

/-- No line adds data before the reading ends. Along the lines go the start addresses that the
last accepted records of type 03 and 05 name; these must be the original ones at the end. -/
inductive Idle (original : u32 × u32) :
    u32 × u32 → Heap Block → IntelHexFormat → List (List u8 × LocalBuffer) → Prop
  | finished (heap : Heap Block) (hexFile : IntelHexFormat) :
      Idle original original heap hexFile []
  | stopped (heap changed : Heap Block) (hexFile relinked : IntelHexFormat) (line : List u8)
      (data : LocalBuffer) (rest : List (List u8 × LocalBuffer))
      (leaves : Leaves heap hexFile line data false changed relinked) :
      Idle original original heap hexFile ((line, data) :: rest)
  | passed (starts : u32 × u32) (heap changed : Heap Block) (hexFile relinked : IntelHexFormat)
      (line : List u8) (data : LocalBuffer) (rest : List (List u8 × LocalBuffer))
      (leaves : Leaves heap hexFile line data true changed relinked)
      (idle : Idle original (announcedBehind starts line data) changed relinked rest) :
      Idle original starts heap hexFile ((line, data) :: rest)

/-! ## One line -/

section Lines

variable (heap : Heap Block) (hexFile : IntelHexFormat) (nodes : List BlockNode)

/-- Appending no bytes writes back what the block held. The block is written, with the same
content. -/
theorem append_nothing (address : u32) (owns : Owns heap hexFile nodes)
    (appends : Appends heap hexFile address) (granted : heap.grants 0 = true) :
    storeBytes heap hexFile address [] = .ok (true, heap.request.2, hexFile) := by
  obtain ⟨pointer, candidate, position⟩ := appends
  obtain ⟨found, same, placed⟩ := find_position heap hexFile nodes address owns
  obtain rfl : found = (some pointer, candidate) := by simpa using same.symm.trans position
  obtain ⟨block, member⟩ : ∃ block, (pointer, block) ∈ nodes := by
    cases placed with
    | tail front pointer block touching => exact ⟨block, by simp⟩
    | inner front pointer block back last candidate inner earlier touching =>
      exact ⟨block, by simp⟩
  obtain ⟨next, stored⟩ := chain_stored heap _ _ nodes owns.chain pointer block member
  have sized : block.data.length = block.length.toNat :=
    owns.sized block (List.mem_map_of_mem member)
  have copied : copy (resize block.data block.length.toNat 0) block.length.toNat ([] : List u8) 0 =
      .ok block.data := by
    have same := grow_copy block.data ([] : List u8) 0 0 (Nat.le_refl 0)
    rwa [Nat.add_zero, sized, List.take_nil, List.append_nil] at same
  have zero : UInt32.ofNat ([] : List u8).length = 0 := rfl
  have noBytes : (0 : u32).toNat = 0 := rfl
  have kept : heap.request.2.stored pointer = some ⟨block, next⟩ := stored
  have called : addBlock heap hexFile address [] 0 = .ok (true, heap.request.2, hexFile) := by
    simp only [addBlock, position, ok_bind, appendToBlock, heap.read_stored pointer _ stored]
    rw [heap.request_answer true granted]
    simp only [if_true, UInt32.add_zero, noBytes, copied, ok_bind,
      heap.request.2.write_stored pointer _ _ kept, heap.request.2.put_same pointer _ kept]
  rw [storeBytes, zero, called]
  simp [Except.map, credited]

variable (line : List u8) (data : LocalBuffer)

/-- A line that adds no data returns and keeps the nodes and the total. The heap may change by the
answers to requests only. -/
theorem leaves_returns (taken : Bool) (changed : Heap Block) (relinked : IntelHexFormat)
    (owns : Owns heap hexFile nodes)
    (leaves : Leaves heap hexFile line data taken changed relinked) :
    ∃ others, parseOneLine heap hexFile line data = .ok (taken, others, relinked) ∧
      (taken = true → others = changed) ∧ Owns others relinked nodes ∧
      relinked.totalLength = hexFile.totalLength := by
  obtain ⟨processed, _⟩ := parse_spelled heap hexFile line data
  cases leaves with
  | passedOver other =>
    exact ⟨heap, by rw [parse_record, if_neg other], fun _ => rfl, owns, rfl⟩
  | misspelled record unspelled =>
    have fails : ¬ TextChecks data (recordText line) := by
      intro checks
      rw [spelledRecord, if_pos ⟨record, checks⟩] at unspelled
      exact Option.some_ne_none _ unspelled
    exact ⟨heap, by rw [parse_record, if_pos record, if_neg fails], by simp, owns, rfl⟩
  | malformed record spelled control refused =>
    refine ⟨heap, ?_, by simp, owns, rfl⟩
    rw [(processed record spelled).1, CheckedRecord.process, if_neg control, refused]
    rfl
  | updated record spelled control update updates =>
    obtain ⟨head, tail, total⟩ := update_list record hexFile relinked updates
    refine ⟨heap, ?_, fun _ => rfl, owns_congr heap hexFile relinked nodes owns head tail, total⟩
    rw [(processed record spelled).1, CheckedRecord.process, if_neg control, updates]
    rfl
  | unread record spelled dataKind mode =>
    refine ⟨heap, ?_, fun _ => rfl, owns, rfl⟩
    rw [(processed record spelled).1, CheckedRecord.process, if_pos dataKind, if_neg mode]
  | unstored record spelled dataKind mode refused =>
    obtain ⟨result, short⟩ := processed record spelled
    obtain ⟨others, stored, cells⟩ := (unchanged_iff heap hexFile _).mp
      ((pieces_refused heap hexFile nodes record.field record.payload owns short).mpr refused)
    rw [result, CheckedRecord.process, if_pos dataKind, if_pos mode, stored]
    exact ⟨others, rfl, by simp, owns_cells heap others hexFile nodes owns cells, rfl⟩
  | empty record spelled dataKind mode nothing appends granted =>
    refine ⟨heap.request.2, ?_, fun _ => rfl, owns_cells heap _ hexFile nodes owns rfl, rfl⟩
    rw [(processed record spelled).1, CheckedRecord.process, if_pos dataKind, if_pos mode, nothing,
      pieces_nothing, store_all_single, append_nothing heap hexFile nodes _ owns appends granted]

/-- An update sets the start addresses that its record announces. All other records leave both of
them. -/
theorem update_starts (record : CheckedRecord) (update : IntelHexFormat)
    (updates : record.update hexFile = some update) :
    startAddresses update = record.announced (startAddresses hexFile) := by
  have guarded : ∀ required changed, record.guarded required changed = some update →
      changed = update := by
    intro required changed taken
    rw [CheckedRecord.guarded] at taken
    split_ifs at taken
    exact Option.some.inj taken
  have silent : record.kind ≠ 3 → record.kind ≠ 5 →
      record.announced (startAddresses hexFile) = startAddresses hexFile := by
    intro notSegment notLinear
    rw [CheckedRecord.announced, if_neg notSegment, if_neg notLinear]
  unfold CheckedRecord.update at updates
  split_ifs at updates with eof segment start linear entry
  · rw [← guarded _ _ updates, silent (by rw [eof]; decide) (by rw [eof]; decide)]
    rfl
  · rw [← guarded _ _ updates, silent (by rw [segment]; decide) (by rw [segment]; decide)]
    rfl
  · obtain rfl := guarded _ _ updates
    simp only [startAddresses, CheckedRecord.announced, if_pos start]
  · rw [← guarded _ _ updates, silent start (by rw [linear]; decide)]
    simp only [startAddresses]
  · obtain rfl := guarded _ _ updates
    simp only [startAddresses, CheckedRecord.announced, if_neg start, if_pos entry]
  · rw [← Option.some.inj updates, silent start entry]

/-- A line that adds no data and is accepted leaves the start addresses it announces; one that
is refused leaves the old ones. -/
theorem leaves_starts (taken : Bool) (changed : Heap Block) (relinked : IntelHexFormat)
    (leaves : Leaves heap hexFile line data taken changed relinked) :
    startAddresses relinked =
      if taken then announcedBehind (startAddresses hexFile) line data
      else startAddresses hexFile := by
  cases leaves with
  | passedOver other =>
    have unspelled : spelledRecord line data = none := if_neg fun both => other both.1
    rw [announcedBehind, unspelled]
    rfl
  | misspelled => rfl
  | malformed => rfl
  | updated record spelled control update updates =>
    rw [announcedBehind, spelled]
    exact update_starts hexFile record relinked updates
  | unread record spelled dataKind =>
    rw [announcedBehind, spelled, Option.elim_some, CheckedRecord.announced, dataKind]
    rfl
  | unstored => rfl
  | empty record spelled dataKind =>
    rw [announcedBehind, spelled, Option.elim_some, CheckedRecord.announced, dataKind]
    rfl

/-- How many blocks there are, and how many cells. It is the measure by which a line that adds
data is noticed at the end. -/
def imageSize (blocks : List Block) : Nat := blocks.length + Multiset.card (storedCells blocks)

/-- A data record that returns and is not inert makes the image larger. Proof: an insertion makes
one more block, an extension by bytes makes more cells. -/
theorem data_grows (record : CheckedRecord) (owns : Owns heap hexFile nodes)
    (short : record.payload.length ≤ 251) (dataKind : record.kind = 0)
    (active : ¬ Inert heap hexFile record) (accepted : Bool) (changed : Heap Block)
    (relinked : IntelHexFormat)
    (returned : record.process heap hexFile = .ok (accepted, changed, relinked)) :
    ∃ after, Owns changed relinked after ∧ imageSize (values nodes) < imageSize (values after) := by
  obtain ⟨after, cells, ownsAfter, added, stored, fewer⟩ := data_cells heap hexFile nodes record
    owns short dataKind active accepted changed relinked returned
  refine ⟨after, ownsAfter, ?_⟩
  rw [imageSize, imageSize, stored, Multiset.card_add]
  by_cases nothing : record.payload = []
  · -- An empty record that does not write a block back inserts an empty one.
    suffices (values after).length ≠ (values nodes).length by omega
    intro same
    have inactive := active
    rw [Inert, if_pos dataKind, not_or, not_or, not_not] at inactive
    obtain ⟨mode, clear, _⟩ := inactive
    rw [nothing, List.length_nil, first_range_nothing] at clear
    have call := returned
    rw [CheckedRecord.process, if_pos dataKind, if_pos mode, nothing, pieces_nothing,
      store_all_single] at call
    obtain ⟨rfl, later, kept⟩ := store_taken heap hexFile nodes _ [] accepted changed relinked owns
      (by simp) clear call
    obtain rfl := owns_unique changed relinked later after kept.owns ownsAfter
    rcases route_nothing _ _ _ kept.route with ⟨blocks, _⟩ | ⟨longer, _⟩
    · have counted : Counted hexFile relinked 0 := kept.counted
      have fields : header relinked = header hexFile := by
        rw [Counted] at counted
        rw [counted]
        simp [header]
      exact active ((inert_exactly heap hexFile nodes record owns short).mpr ⟨true, changed,
        relinked, returned,
        same_values_image heap hexFile nodes changed relinked later owns ownsAfter blocks fields⟩)
    · omega
  · have positive : 0 < Multiset.card cells := by
      by_contra none
      obtain rfl : cells = 0 := Multiset.card_eq_zero.mp (Nat.eq_zero_of_not_pos none)
      exact nothing (added_cells_nothing hexFile record.field record.payload added)
    omega

/-- A line that returns adds no data or makes the image larger. Nothing can make it smaller. -/
theorem line_cases (owns : Owns heap hexFile nodes) (taken : Bool) (others : Heap Block)
    (relinked : IntelHexFormat)
    (returned : parseOneLine heap hexFile line data = .ok (taken, others, relinked)) :
    (∃ changed, Leaves heap hexFile line data taken changed relinked) ∨
      ∃ after, Owns others relinked after ∧
        imageSize (values nodes) < imageSize (values after) := by
  have settled : ∀ accepted changed following,
      Leaves heap hexFile line data accepted changed following →
      ∃ changed, Leaves heap hexFile line data taken changed relinked := by
    intro accepted changed following leaves
    obtain ⟨_, result, _⟩ := leaves_returns heap hexFile nodes line data accepted changed following
      owns leaves
    obtain ⟨rfl, _, rfl⟩ : accepted = taken ∧ _ = others ∧ following = relinked := by
      simpa using result.symm.trans returned
    exact ⟨changed, leaves⟩
  cases spelled : spelledRecord line data with
  | none =>
    by_cases record : IsRecord line
    · exact Or.inl (settled _ _ _ (.misspelled record spelled))
    · exact Or.inl (settled _ _ _ (.passedOver record))
  | some record =>
    obtain ⟨result, short⟩ := (parse_spelled heap hexFile line data).1 record spelled
    by_cases dataKind : record.kind = 0
    · by_cases inert : Inert heap hexFile record
      · left
        by_cases mode : hexFile.fileMode = .linear
        · rw [Inert, if_pos dataKind] at inert
          rcases inert with other | refused | ⟨nothing, appends, granted⟩
          · exact absurd mode other
          · exact settled _ _ _ (.unstored record spelled dataKind mode refused)
          · rw [nothing, List.length_nil, first_range_nothing] at appends
            exact settled _ _ _ (.empty record spelled dataKind mode nothing appends granted)
        · exact settled _ _ _ (.unread record spelled dataKind mode)
      · exact Or.inr (data_grows heap hexFile nodes record owns short dataKind inert taken others
          relinked (result.symm.trans returned))
    · left
      cases updates : record.update hexFile with
      | none => exact settled _ _ _ (.malformed record spelled dataKind updates)
      | some update => exact settled _ _ _ (.updated record spelled dataKind update updates)

end Lines

/-! ## All lines -/

section Runs

variable (original : u32 × u32)

/-- Lines never make the image smaller. So what one line added is not taken back by a later
one. -/
theorem lines_grow (heap others : Heap Block) (hexFile relinked : IntelHexFormat)
    (nodes : List BlockNode) (lines : List (List u8 × LocalBuffer)) (taken : Bool)
    (owns : Owns heap hexFile nodes)
    (returned : parseLines heap hexFile lines = .ok (taken, others, relinked)) :
    ∃ after, Owns others relinked after ∧ imageSize (values nodes) ≤ imageSize (values after) := by
  induction lines generalizing heap hexFile nodes with
  | nil =>
    obtain ⟨_, rfl, rfl⟩ : true = taken ∧ heap = others ∧ hexFile = relinked := by
      simpa [parseLines] using returned
    exact ⟨nodes, owns, Nat.le_refl _⟩
  | cons entry rest inductionHypothesis =>
    obtain ⟨line, data⟩ := entry
    rw [parseLines] at returned
    obtain ⟨⟨accepted, changed, following⟩, parsed, returned⟩ := (bind_ok_iff _ _ _).mp returned
    obtain ⟨middle, owned, larger⟩ : ∃ middle, Owns changed following middle ∧
        imageSize (values nodes) ≤ imageSize (values middle) := by
      rcases line_cases heap hexFile nodes line data owns accepted changed following parsed with
        ⟨left, leaves⟩ | ⟨middle, owned, larger⟩
      · obtain ⟨_, result, _, owned, _⟩ := leaves_returns heap hexFile nodes line data accepted left
          following owns leaves
        obtain rfl : _ = changed := by simpa using result.symm.trans parsed
        exact ⟨nodes, owned, Nat.le_refl _⟩
      · exact ⟨middle, owned, Nat.le_of_lt larger⟩
    cases accepted with
    | true =>
      obtain ⟨after, ownsAfter, further⟩ := inductionHypothesis changed following middle owned
        returned
      exact ⟨after, ownsAfter, larger.trans further⟩
    | false =>
      obtain ⟨_, rfl, rfl⟩ : false = taken ∧ changed = others ∧ following = relinked := by
        simpa using returned
      exact ⟨middle, owned, larger⟩

/-- Idle lines return and keep the nodes and the total, with the original start addresses at
the end. -/
theorem idle_returns (heap : Heap Block) (hexFile : IntelHexFormat) (nodes : List BlockNode)
    (lines : List (List u8 × LocalBuffer)) (owns : Owns heap hexFile nodes)
    (idle : Idle original (startAddresses hexFile) heap hexFile lines) :
    ∃ taken others relinked, parseLines heap hexFile lines = .ok (taken, others, relinked) ∧
      Owns others relinked nodes ∧ relinked.totalLength = hexFile.totalLength ∧
      startAddresses relinked = original := by
  generalize tracked : startAddresses hexFile = starts at idle
  induction idle with
  | finished heap hexFile => exact ⟨true, heap, hexFile, rfl, owns, rfl, tracked⟩
  | stopped heap changed hexFile relinked line data rest leaves =>
    obtain ⟨others, result, _, owned, total⟩ := leaves_returns heap hexFile nodes line data false
      changed relinked owns leaves
    have kept := leaves_starts heap hexFile line data false changed relinked leaves
    exact ⟨false, others, relinked, by simp [parseLines, result], owned, total,
      kept.trans tracked⟩
  | passed starts heap changed hexFile relinked line data rest leaves idle inductionHypothesis =>
    obtain ⟨others, result, same, owned, total⟩ := leaves_returns heap hexFile nodes line data true
      changed relinked owns leaves
    obtain rfl := same rfl
    have named := leaves_starts heap hexFile line data true _ relinked leaves
    rw [if_pos rfl, tracked] at named
    obtain ⟨taken, last, final, returned, ownsLast, totals, ends⟩ :=
      inductionHypothesis owned named
    exact ⟨taken, last, final, by simp [parseLines, result, returned], ownsLast,
      totals.trans total, ends⟩

/-- Lines that return with the same blocks and the original start addresses are idle. Proof: by
induction on the lines; a line that made the image larger would leave it larger at the end. -/
theorem unchanged_idle (heap others : Heap Block) (hexFile relinked : IntelHexFormat)
    (nodes after : List BlockNode) (lines : List (List u8 × LocalBuffer)) (taken : Bool)
    (owns : Owns heap hexFile nodes) (ownsAfter : Owns others relinked after)
    (returned : parseLines heap hexFile lines = .ok (taken, others, relinked))
    (same : values after = values nodes) (ends : startAddresses relinked = original) :
    Idle original (startAddresses hexFile) heap hexFile lines := by
  induction lines generalizing heap hexFile nodes with
  | nil =>
    obtain ⟨_, rfl, rfl⟩ : true = taken ∧ heap = others ∧ hexFile = relinked := by
      simpa [parseLines] using returned
    rw [ends]
    exact .finished heap hexFile
  | cons entry rest inductionHypothesis =>
    obtain ⟨line, data⟩ := entry
    rw [parseLines] at returned
    obtain ⟨⟨accepted, changed, following⟩, parsed, returned⟩ := (bind_ok_iff _ _ _).mp returned
    rcases line_cases heap hexFile nodes line data owns accepted changed following parsed with
      ⟨left, leaves⟩ | ⟨middle, owned, larger⟩
    · obtain ⟨_, result, passes, owned, _⟩ := leaves_returns heap hexFile nodes line data accepted
        left following owns leaves
      obtain rfl : _ = changed := by simpa using result.symm.trans parsed
      cases accepted with
      | true =>
        obtain rfl := passes rfl
        have named := leaves_starts heap hexFile line data true _ following leaves
        refine .passed _ heap _ hexFile following line data rest leaves ?_
        rw [if_pos rfl] at named
        rw [← named]
        exact inductionHypothesis _ following nodes owned returned same
      | false =>
        obtain ⟨_, rfl, rfl⟩ : false = taken ∧ _ = others ∧ following = relinked := by
          simpa using returned
        have kept := leaves_starts heap hexFile line data false left following leaves
        rw [← ends, ← show startAddresses following = startAddresses hexFile from kept]
        exact .stopped heap left hexFile following line data rest leaves
    · -- The image has become larger and does not become smaller again.
      exfalso
      suffices imageSize (values middle) ≤ imageSize (values after) by
        rw [same] at this
        omega
      cases accepted with
      | true =>
        obtain ⟨later, ownsLater, further⟩ := lines_grow changed others following relinked middle
          rest taken owned returned
        obtain rfl := owns_unique others relinked later after ownsLater ownsAfter
        exact further
      | false =>
        obtain ⟨_, rfl, rfl⟩ : false = taken ∧ changed = others ∧ following = relinked := by
          simpa using returned
        obtain rfl := owns_unique changed following middle after owned ownsAfter
        exact Nat.le_refl _

end Runs

/-! ## Behind the end-of-file record -/

/-- The lines of what follows, with the contents of the array they are decoded to. Each call of
the parser has its own array, counted from the beginning of the file. -/
def linesBehind (front further : List u8) (arrays : Nat → LocalBuffer) :
    List (List u8 × LocalBuffer) :=
  numbered (fileLines further) fun index => arrays (index + (fileLines front).length)

section Continuations

variable (heap before : Heap Block) (front : List u8) (arrays : Nat → LocalBuffer)
  (hexFile : IntelHexFormat)

/-- The reading goes on in the state behind the record. What follows is read as lines of its
own. -/
theorem input_ended (further : List u8) (ends : EndedByEof heap front arrays before hexFile) :
    intelHexFileInput heap (some (front ++ further)) arrays = (do
      let (_, changed, relinked) ← parseLines before hexFile (linesBehind front further arrays)
      .ok (some relinked, changed)) := by
  have answer : heap.request.1 = true := ends.granted
  have lines : fileLines (front ++ further) = fileLines front ++ fileLines further :=
    file_lines_append front further (fileLines front) rfl ends.whole
  have split : numbered (fileLines front ++ fileLines further) arrays =
      numbered (fileLines front) arrays ++ linesBehind front further arrays := List.mapIdx_append
  simp only [intelHexFileInput, answer, Bool.true_eq_false, if_false]
  rw [lines, split, parse_lines_append, ends.accepted]
  rfl

/-- A continuation loads what the file loads without it exactly if its lines are idle. Proof: a
line that is not idle makes the image larger or is found at the end in the start addresses. -/
theorem same_data_exactly (further : List u8)
    (ends : EndedByEof heap front arrays before hexFile) :
    SameData (intelHexFileInput heap (some (front ++ further)) arrays)
        (intelHexFileInput heap (some (front ++ [])) arrays) ↔
      Idle (startAddresses hexFile) (startAddresses hexFile) before hexFile
        (linesBehind front further arrays) := by
  obtain ⟨nodes, owns⟩ := lines_own heap.request.2 before .fresh hexFile [] _ true
    (owns_nothing _ _ rfl rfl) ends.accepted
  have alone : intelHexFileInput heap (some (front ++ [])) arrays = .ok (some hexFile, before) :=
    input_ended heap before front arrays hexFile [] ends
  rw [alone, input_ended heap before front arrays hexFile further ends]
  constructor
  · rintro ⟨relinked, others, last, lastHeap, loaded, same, blocks, total, segment, linear⟩
    obtain ⟨rfl, rfl⟩ : hexFile = last ∧ before = lastHeap := by simpa using same
    obtain ⟨⟨taken, changed, following⟩, returned, output⟩ := (bind_ok_iff _ _ _).mp loaded
    obtain ⟨rfl, rfl⟩ : following = relinked ∧ changed = others := by simpa using output
    obtain ⟨after, ownsAfter⟩ := lines_own before changed hexFile following nodes _ taken owns
      returned
    rw [block_list changed following after ownsAfter, block_list before hexFile nodes owns]
      at blocks
    exact unchanged_idle (startAddresses hexFile) before changed hexFile following nodes after _
      taken owns ownsAfter returned (Except.ok.inj blocks) (Prod.ext segment linear)
  · intro idle
    obtain ⟨taken, others, relinked, returned, ownsAfter, total, starts⟩ :=
      idle_returns (startAddresses hexFile) before hexFile nodes _ owns idle
    refine ⟨relinked, others, hexFile, before, by rw [returned]; rfl, rfl, ?_, total,
      congrArg Prod.fst starts, congrArg Prod.snd starts⟩
    rw [block_list others relinked nodes ownsAfter, block_list before hexFile nodes owns]

/-- A start address record behind the end of the file is accepted. So such a line behind the end
changes what the file loads. -/
theorem start_address_read (line payload : List u8)
    (ends : EndedByEof heap front arrays before hexFile) (single : fileLines line = [line])
    (spelled : ∀ data, spelledRecord line data = some ⟨5, 0, payload⟩)
    (count : payload.length = 4) :
    intelHexFileInput heap (some (front ++ line)) arrays =
      .ok (some { hexFile with
        startLinearAddress := bigEndianWord (recordBytes 5 0 payload) }, before) := by
  have lines : linesBehind front line arrays = [(line, arrays (0 + (fileLines front).length))] := by
    rw [linesBehind, single]
    rfl
  obtain ⟨processed, _⟩ := parse_spelled before hexFile line (arrays (0 + (fileLines front).length))
  rw [input_ended heap before front arrays hexFile line ends, lines, parseLines,
    (processed _ (spelled _)).1]
  simp [CheckedRecord.process, CheckedRecord.update, CheckedRecord.guarded, CheckedRecord.bytes,
    count, parseLines]

/-- Whatever follows the record, the file loads the same, exactly if the lines of all that can
follow are idle. Nothing following is one of the continuations. Proof: each continuation is
compared with the empty one, whose lines are none. -/
theorem eof_ends_exactly (continuations : Set (List u8)) (alone : [] ∈ continuations)
    (ends : EndedByEof heap front arrays before hexFile) :
    (∀ first ∈ continuations, ∀ second ∈ continuations,
      SameData (intelHexFileInput heap (some (front ++ first)) arrays)
        (intelHexFileInput heap (some (front ++ second)) arrays)) ↔
      ∀ further ∈ continuations,
        Idle (startAddresses hexFile) (startAddresses hexFile) before hexFile
          (linesBehind front further arrays) := by
  constructor
  · intro same further member
    exact (same_data_exactly heap before front arrays hexFile further ends).mp
      (same further member [] alone)
  · intro idle first inFirst second inSecond
    have left := (same_data_exactly heap before front arrays hexFile first ends).mpr
      (idle first inFirst)
    have right := (same_data_exactly heap before front arrays hexFile second ends).mpr
      (idle second inSecond)
    exact left.trans right.symm

end Continuations

/-- The line of an end-of-file record. It has a newline, so that lines behind it are whole. -/
abbrev eofLine : List u8 := ":00000001FF\n".toList.map code

set_option maxRecDepth 8000 in
/-- A file of this line alone. It needs no line in front. -/
theorem eof_line_ends : EndedByEof ⟨[], fun _ => true⟩ eofLine (fun _ => .zero)
    ⟨[], fun _ => true⟩ { IntelHexFormat.fresh with endOfFile := true } where
  granted := rfl
  whole := by
    have lines : fileLines eofLine = [eofLine] := rfl
    rw [lines]
    decide
  ended := ⟨[], eofLine, ⟨1, 0, []⟩, rfl, by decide +kernel, rfl⟩
  accepted := rfl

set_option maxRecDepth 8000 in
/-- A second end-of-file record changes nothing. The flag is set already, and it is no data. -/
theorem second_eof_idle :
    SameData (intelHexFileInput ⟨[], fun _ => true⟩ (some (eofLine ++ [])) fun _ => .zero)
      (intelHexFileInput ⟨[], fun _ => true⟩ (some (eofLine ++ eofLine)) fun _ => .zero) := by
  refine (eof_ends_exactly ⟨[], fun _ => true⟩ ⟨[], fun _ => true⟩ eofLine (fun _ => .zero)
    { IntelHexFormat.fresh with endOfFile := true } {[], eofLine} (Or.inl rfl)
    eof_line_ends).mpr ?_ [] (Or.inl rfl) eofLine (Or.inr rfl)
  rintro further (rfl | rfl)
  · exact .finished _ _
  · exact .passed _ _ _ _ _ eofLine .zero []
      (.updated ⟨1, 0, []⟩ (by decide +kernel) (by decide) _ rfl) (.finished _ _)

set_option maxRecDepth 8000 in
/-- A data record behind the end-of-file record is loaded. The flag is set, and the byte is stored
all the same. -/
theorem data_behind_eof :
    EndedByEof ⟨[], fun _ => true⟩ eofLine (fun _ => .zero) ⟨[], fun _ => true⟩
      { IntelHexFormat.fresh with endOfFile := true } ∧
    ¬ SameData (intelHexFileInput ⟨[], fun _ => true⟩ (some (eofLine ++ [])) fun _ => .zero)
      (intelHexFileInput ⟨[], fun _ => true⟩
        (some (eofLine ++ ":0100000007F8\n".toList.map code)) fun _ => .zero) := by
  refine ⟨eof_line_ends, fun same => ?_⟩
  have alone : intelHexFileInput ⟨[], fun _ => true⟩ (some (eofLine ++ [])) (fun _ => .zero) =
      .ok (some { IntelHexFormat.fresh with endOfFile := true }, ⟨[], fun _ => true⟩) := rfl
  have loaded : intelHexFileInput ⟨[], fun _ => true⟩
      (some (eofLine ++ ":0100000007F8\n".toList.map code)) (fun _ => .zero) =
      .ok (some { IntelHexFormat.fresh with
          totalLength := 1
          blockHead := some 0
          blockTail := some 0
          endOfFile := true },
        ⟨[some ⟨⟨0, 1, [7]⟩, none⟩], fun _ => true⟩) := rfl
  obtain ⟨hexFile, heap, other, otherHeap, first, second, _, total, _⟩ := same
  obtain ⟨rfl, _⟩ : _ = hexFile ∧ _ = heap := by simpa using alone.symm.trans first
  obtain ⟨rfl, _⟩ : _ = other ∧ _ = otherHeap := by simpa using loaded.symm.trans second
  exact absurd total (by decide)

set_option maxRecDepth 8000 in
/-- The record never ends the image: one of these two start addresses is not the one in
front. -/
theorem start_address_differs (heap before : Heap Block) (front : List u8)
    (arrays : Nat → LocalBuffer) (hexFile : IntelHexFormat)
    (ends : EndedByEof heap front arrays before hexFile) :
    ∃ further, ¬ SameData (intelHexFileInput heap (some (front ++ further)) arrays)
      (intelHexFileInput heap (some (front ++ [])) arrays) := by
  have differs : ∀ (line payload : List u8), fileLines line = [line] →
      (∀ data, spelledRecord line data = some ⟨5, 0, payload⟩) → payload.length = 4 →
      bigEndianWord (recordBytes 5 0 payload) ≠ hexFile.startLinearAddress →
      ¬ SameData (intelHexFileInput heap (some (front ++ line)) arrays)
        (intelHexFileInput heap (some (front ++ [])) arrays) := by
    intro line payload single spelled count other same
    obtain ⟨relinked, others, last, lastHeap, loaded, alone, _, _, _, linear⟩ := same
    rw [start_address_read heap before front arrays hexFile line payload ends single spelled count]
      at loaded
    rw [input_ended heap before front arrays hexFile [] ends] at alone
    obtain ⟨rfl, _⟩ : _ = relinked ∧ before = others := by simpa using loaded
    obtain ⟨rfl, _⟩ : hexFile = last ∧ before = lastHeap := by
      simpa [linesBehind, numbered, fileLines, readLines, parseLines] using alone
    exact other linear
  by_cases zero : hexFile.startLinearAddress = 0
  · refine ⟨":0400000500000001F6\n".toList.map code, differs _ [0, 0, 0, 1] rfl ?_ rfl ?_⟩
    · intro data
      rw [spelled_full _ data .zero (by decide) (by decide +kernel)]
      decide +kernel
    · rw [zero]
      decide
  · refine ⟨":0400000500000000F7\n".toList.map code, differs _ [0, 0, 0, 0] rfl ?_ rfl ?_⟩
    · intro data
      rw [spelled_full _ data .zero (by decide) (by decide +kernel)]
      decide +kernel
    · exact fun same => zero same.symm

end EffiLib.IntelHex
