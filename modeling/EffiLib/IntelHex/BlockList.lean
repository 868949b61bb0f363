import EffiLib.IntelHex.AddBlock

/-!
# The block list over runs of additions

A range is a nonempty run of bytes that fits below 2^32. As long as a range is
apart from every stored block, each route of `addBlock` accepts it and overlays
the address map with its bytes; if no stored block ends at 2^32 the list also
stays ascending.

`AddBlock` tests for overlaps on two of its routes only. `Caught` says when the
test sees an overlap; a run whose overlapping calls are all caught keeps the list
ascending, and an overlap that is not caught is stored.
-/

namespace EffiLib.IntelHex

open Buffers LinkedHeap Segments

/-- Bytes handed to one `addBlock` call, at an address that has room for them. Records and files
only hand over such runs, and empty ones are dealt with apart. -/
structure Range where
  address : u32
  bytes : List u8
  nonempty : 0 < bytes.length
  countable : bytes.length < 2 ^ 32
  fits : address.toNat + bytes.length ≤ 2 ^ 32

/-- The addresses a range names, with their bytes. It is the same kind of thing as the segment of
a block, so that the two can be compared. -/
def Range.segment (range : Range) : Segment u8 := ⟨range.address.toNat, range.bytes⟩

/-- A range starts at its address. -/
@[simp] theorem Range.segment_start (range : Range) :
    range.segment.start = range.address.toNat := rfl

/-- A range stops behind its last byte. It may stop above the address space. -/
@[simp] theorem Range.segment_stop (range : Range) :
    range.segment.stop = range.address.toNat + range.bytes.length := rfl

/-- The call that stores a range. The caller's array is as long as the length it passes. -/
def addRange (heap : Heap Block) (hexFile : IntelHexFormat) (range : Range) :
    Run (Bool × Heap Block × IntelHexFormat) :=
  addBlock heap hexFile range.address range.bytes (UInt32.ofNat range.bytes.length)

/-- Successive calls, up to and including the first that returns `FALSE`. This is how the callers
use `AddBlock`: a refusal ends the loading. -/
def addRanges (heap : Heap Block) (hexFile : IntelHexFormat) :
    List Range → Run (Bool × Heap Block × IntelHexFormat)
  | [] => .ok (true, heap, hexFile)
  | range :: rest => do
    let (accepted, heap, hexFile) ← addRange heap hexFile range
    if accepted then addRanges heap hexFile rest else .ok (false, heap, hexFile)

/-! ## Routes in integer arithmetic -/

/-- The machine end compares with an address as the integer end does. The end does not wrap, since
it is below the top. -/
theorem wrapped_end_lt (block : Block) (address : u32) (sized : block.Sized)
    (below : block.segment.stop < 2 ^ 32) :
    block.wrappedEnd < address ↔ block.segment.stop < address.toNat := by
  rw [UInt32.lt_iff_toNat_lt, block.wrapped_end_exact sized below]

/-- Below the end of the address space the comparison of the code, made on wrapped ends, is the
comparison of the numbers. -/
theorem lt_wrapped_end (block : Block) (address : u32) (sized : block.Sized)
    (below : block.segment.stop < 2 ^ 32) :
    address < block.wrappedEnd ↔ address.toNat < block.segment.stop := by
  rw [UInt32.lt_iff_toNat_lt, block.wrapped_end_exact sized below]

/-- The machine end is an address exactly when the integer end is. It decides whether bytes are
appended to a block. -/
theorem wrapped_end_eq (block : Block) (address : u32) (sized : block.Sized)
    (below : block.segment.stop < 2 ^ 32) :
    block.wrappedEnd = address ↔ block.segment.stop = address.toNat := by
  rw [← UInt32.toNat_inj, block.wrapped_end_exact sized below]

/-- A machine end above an address means an integer end above it, even past 2^32. A wrapped end is
never greater than the integer end. -/
theorem ends_above (block : Block) (address : u32) (sized : block.Sized)
    (ahead : address < block.wrappedEnd) : address.toNat < block.segment.stop := by
  rw [UInt32.lt_iff_toNat_lt, block.wrapped_end_mod sized] at ahead
  exact ahead.trans_le (Nat.mod_le _ _)

/-- A fresh block lies at its address and holds the bytes given. -/
@[simp] theorem fresh_segment (address : u32) (bytes : List u8) :
    (Block.fresh address bytes).segment = ⟨address.toNat, bytes⟩ := rfl

/-- An extended block keeps its address and gains bytes behind its last one. -/
@[simp] theorem extend_segment (block : Block) (bytes : List u8) :
    (block.extend bytes).segment = ⟨block.address.toNat, block.data ++ bytes⟩ := rfl

/-- A range apart from every stored block is never refused: both overlap tests
compare blocks that lie wholly above the range. -/
theorem route_accepts (address : u32) (bytes : List u8) (blocks after : List Block)
    (accepted : Bool) (route : Route address bytes blocks accepted after)
    (sized : ∀ block ∈ blocks, block.Sized)
    (apart : ∀ block ∈ blocks, block.segment.Apart ⟨address.toNat, bytes⟩) :
    accepted = true := by
  cases route with
  | first => rfl
  | appendTail => rfl
  | afterTail => rfl
  | appendInner => rfl
  | between => rfl
  | before => rfl
  | refuseNext front early late back untouched behind ahead overlapped =>
    have above := ends_above late address (sized late (by simp)) (ahead late (by simp))
    have lateBound := late.address.toNat_lt
    rcases apart late (by simp) with ends | begins
    · have before : late.segment.stop ≤ address.toNat := ends
      omega
    · have clear : address.toNat + bytes.length ≤ late.address.toNat := begins
      have count : (UInt32.ofNat bytes.length).toNat = bytes.length :=
        UInt32.toNat_ofNat_of_lt' (by rw [UInt32.size]; omega)
      rw [UInt32.lt_iff_toNat_lt, UInt32.toNat_add, count, Nat.mod_eq_of_lt (by omega)]
        at overlapped
      omega
  | refuseHead head rest ahead overlapped =>
    have above := ends_above head address (sized head (by simp)) (ahead head (by simp))
    rw [UInt32.lt_iff_toNat_lt] at overlapped
    rcases apart head (by simp) with ends | begins
    · have before : head.segment.stop ≤ address.toNat := ends
      omega
    · have clear : address.toNat + bytes.length ≤ head.address.toNat := begins
      omega

/-- An accepted range apart from every stored block overlays the address map, if a
block whose machine end is the address really ends there. -/
theorem route_image (address : u32) (bytes : List u8) (blocks after : List Block)
    (route : Route address bytes blocks true after)
    (apart : ∀ block ∈ blocks, block.segment.Apart ⟨address.toNat, bytes⟩)
    (genuine : ∀ block ∈ blocks, block.wrappedEnd = address → block.segment.stop = address.toNat)
    (position : Nat) :
    image (segments after) position =
      overlay ⟨address.toNat, bytes⟩ (image (segments blocks)) position := by
  have inserted : ∀ front back : List Block, blocks = front ++ back →
      image (segments (front ++ .fresh address bytes :: back)) position =
        overlay ⟨address.toNat, bytes⟩ (image (segments blocks)) position := by
    intro front back split
    subst split
    simp only [segments_append, segments_cons, fresh_segment]
    refine image_insert (segments front) (segments back) _ ?_ position
    intro segment member
    obtain ⟨block, belongs, rfl⟩ := List.mem_map.mp member
    exact apart block (by simp [belongs])
  have extended : ∀ (front : List Block) (block : Block) (back : List Block),
      blocks = front ++ block :: back → block.wrappedEnd = address →
      image (segments (front ++ block.extend bytes :: back)) position =
        overlay ⟨address.toNat, bytes⟩ (image (segments blocks)) position := by
    intro front block back split touching
    subst split
    have ends : block.address.toNat + block.data.length = address.toNat :=
      genuine block (by simp) touching
    simp only [segments_append, segments_cons, extend_segment]
    rw [← ends]
    refine image_extend (segments front) (segments back) block.address.toNat block.data bytes ?_
      position
    intro segment member
    obtain ⟨other, belongs, rfl⟩ := List.mem_map.mp member
    rw [ends]
    exact apart other (by simp [belongs])
  cases route with
  | first => exact inserted [] [] rfl
  | appendTail front tail touching => exact extended front tail [] rfl touching
  | afterTail front tail behind =>
    have placed := inserted (front ++ [tail]) [] (by simp)
    simpa using placed
  | appendInner front block back tail inner earlier touching =>
    exact extended front block (back ++ [tail]) rfl touching
  | between front early late back untouched behind ahead clear =>
    have placed := inserted (front ++ [early]) (late :: back) (by simp)
    simpa using placed
  | before head rest ahead clear => exact inserted [] (head :: rest) rfl

/-- Every block left by an accepted route is an old one, the fresh one, or an old
one extended at its machine end. -/
theorem route_members (address : u32) (bytes : List u8) (blocks after : List Block)
    (accepted : Bool) (route : Route address bytes blocks accepted after) (block : Block)
    (member : block ∈ after) :
    block ∈ blocks ∨ block = .fresh address bytes ∨
      ∃ old ∈ blocks, old.wrappedEnd = address ∧ block = old.extend bytes := by
  cases route with
  | first => exact Or.inr (Or.inl (List.mem_singleton.mp member))
  | appendTail front tail touching =>
    rcases List.mem_append.mp member with inFront | atEnd
    · exact Or.inl (by simp [inFront])
    · exact Or.inr (Or.inr ⟨tail, by simp, touching, List.mem_singleton.mp atEnd⟩)
  | afterTail front tail behind =>
    simp only [List.mem_append, List.mem_cons, List.not_mem_nil, or_false] at member
    rcases member with inFront | atTail | added
    · exact Or.inl (by simp [inFront])
    · exact Or.inl (by simp [atTail])
    · exact Or.inr (Or.inl added)
  | appendInner front inside back tail inner earlier touching =>
    rcases List.mem_append.mp member with inFront | atEnd
    · exact Or.inl (by simp [inFront])
    · rcases List.mem_cons.mp atEnd with extended | inBack
      · exact Or.inr (Or.inr ⟨inside, by simp, touching, extended⟩)
      · exact Or.inl (List.mem_append_right front (List.mem_cons_of_mem inside inBack))
  | between front early late back untouched behind ahead clear =>
    simp only [List.mem_append, List.mem_cons] at member
    rcases member with inFront | atEarly | added | atLate | inBack
    · exact Or.inl (by simp [inFront])
    · exact Or.inl (by simp [atEarly])
    · exact Or.inr (Or.inl added)
    · exact Or.inl (by simp [atLate])
    · exact Or.inl (by simp [inBack])
  | refuseNext => exact Or.inl member
  | before head rest ahead clear =>
    rcases List.mem_cons.mp member with added | old
    · exact Or.inr (Or.inl added)
    · exact Or.inl old
  | refuseHead => exact Or.inl member

/-- A list of nonempty blocks in ascending order that stays inside the address
space. Nonempty blocks make the order of their addresses strict. -/
structure Tidy (blocks : List Block) : Prop where
  sized : ∀ block ∈ blocks, block.Sized
  nonempty : ∀ block ∈ blocks, 0 < block.data.length
  within : ∀ block ∈ blocks, block.segment.stop ≤ 2 ^ 32
  ascending : Ascending (segments blocks)

/-- No block ends at 2^32, where its machine end would be zero. Under this the wrapped comparisons
of the code are comparisons of numbers. -/
def Below (blocks : List Block) : Prop := ∀ block ∈ blocks, block.segment.stop < 2 ^ 32

/-- The empty list is tidy. It is the list of a new file. -/
theorem tidy_nil : Tidy [] := ⟨by simp, by simp, by simp, List.Pairwise.nil⟩

/-- One nonempty block inside the address space is tidy. There is no other block to be apart
from. -/
theorem tidy_single (block : Block) (sized : block.Sized) (nonempty : 0 < block.data.length)
    (within : block.segment.stop ≤ 2 ^ 32) : Tidy [block] :=
  ⟨by simpa using sized, by simpa using nonempty, by simpa using within,
    List.pairwise_singleton _ _⟩

/-- All blocks up to one that ends below the address do so. The list is in order, so their ends
are not above that one. -/
theorem front_ends_below (address : u32) (front back : List Block) (last : Block)
    (tidy : Tidy (front ++ last :: back)) (below : Below (front ++ last :: back))
    (behind : last.wrappedEnd < address) :
    ∀ block ∈ front ++ [last], block.segment.stop ≤ address.toNat := by
  intro block member
  have ends := (wrapped_end_lt last address (tidy.sized last (by simp))
    (below last (by simp))).mp behind
  rcases List.mem_append.mp member with inFront | atEnd
  · have ascending := tidy.ascending
    rw [segments_append, segments_cons, ascending_split] at ascending
    have before := ascending.2.1 block.segment (List.mem_map.mpr ⟨block, inFront, rfl⟩)
    have spans := last.segment.start_le_stop
    omega
  · rw [List.mem_singleton.mp atEnd]
    exact Nat.le_of_lt ends

/-- A range apart from all blocks is placed in order by every accepting route. Proof: on each
route the neighbours of the new bytes are those that the comparisons of the code have found. -/
theorem route_ascending (address : u32) (bytes : List u8) (blocks after : List Block)
    (route : Route address bytes blocks true after) (tidy : Tidy blocks) (below : Below blocks)
    (apart : ∀ block ∈ blocks, block.segment.Apart ⟨address.toNat, bytes⟩) :
    Ascending (segments after) := by
  -- A block with an end above the address lies wholly above the range.
  have above : ∀ block ∈ blocks, address.toNat < block.segment.stop →
      address.toNat + bytes.length ≤ block.address.toNat := by
    intro block member ahead
    rcases apart block member with ends | begins
    · have before : block.segment.stop ≤ address.toNat := ends
      omega
    · exact begins
  have ascending := tidy.ascending
  cases route with
  | first => simp [Ascending]
  | appendTail front tail touching =>
    simp only [segments_append, segments_cons, extend_segment, ascending_split] at ascending ⊢
    exact ⟨ascending.1, ascending.2.1, by simp⟩
  | afterTail front tail behind =>
    have ends := (wrapped_end_lt tail address (tidy.sized tail (by simp)) (below tail (by simp))).mp
      behind
    have joined := (ascending_join (segments front) [] tail.segment ⟨address.toNat, bytes⟩).mpr
      ⟨by simpa using ascending, by simp [Ascending], Nat.le_of_lt ends⟩
    simpa using joined
  | appendInner front block back tail inner earlier touching =>
    have ends := (wrapped_end_eq block address (tidy.sized block (by simp))
      (below block (by simp))).mp touching
    rw [segments_append, segments_cons, ascending_split] at ascending ⊢
    refine ⟨ascending.1, ascending.2.1, ?_⟩
    intro segment member
    obtain ⟨other, belongs, rfl⟩ := List.mem_map.mp member
    have inBlocks : other ∈ front ++ block :: (back ++ [tail]) :=
      List.mem_append_right front (List.mem_cons_of_mem block belongs)
    have begins := ascending.2.2 other.segment member
    have covered := tidy.nonempty other inBlocks
    have ahead : address.toNat < other.segment.stop := by
      simp only [Segment.stop, Block.segment_start, Block.segment_items] at begins ends ⊢
      omega
    have clear := above other inBlocks ahead
    simp only [Segment.stop, Block.segment_start, Block.segment_items, extend_segment,
      List.length_append] at ends ⊢
    omega
  | between front early late back untouched behind ahead clear =>
    have regroup : segments (front ++ early :: .fresh address bytes :: late :: back) =
        segments (front ++ [early]) ++ ⟨address.toNat, bytes⟩ :: segments (late :: back) := by simp
    rw [regroup, ascending_split]
    refine ⟨by simpa using ascending, ?_, ?_⟩
    · intro segment member
      obtain ⟨other, belongs, rfl⟩ := List.mem_map.mp member
      exact front_ends_below address front (late :: back) early tidy below behind other belongs
    · intro segment member
      obtain ⟨other, belongs, rfl⟩ := List.mem_map.mp member
      have inBlocks : other ∈ front ++ early :: late :: back :=
        List.mem_append_right front (List.mem_cons_of_mem early belongs)
      have wrapped := ahead other belongs
      rw [lt_wrapped_end other address (tidy.sized other inBlocks) (below other inBlocks)]
        at wrapped
      exact above other inBlocks wrapped
  | before head rest ahead clear =>
    refine List.pairwise_cons.mpr ⟨?_, ascending⟩
    intro segment member
    obtain ⟨other, belongs, rfl⟩ := List.mem_map.mp member
    have wrapped := ahead other belongs
    rw [lt_wrapped_end other address (tidy.sized other belongs) (below other belongs)] at wrapped
    exact above other belongs wrapped

/-- Storing a range apart from all blocks keeps the list tidy. So the invariant of the list
carries over to the next call. -/
theorem route_tidy (range : Range) (blocks after : List Block)
    (route : Route range.address range.bytes blocks true after) (tidy : Tidy blocks)
    (below : Below blocks) (apart : ∀ block ∈ blocks, block.segment.Apart range.segment)
    (sized : ∀ block ∈ after, block.Sized) : Tidy after := by
  have fits := range.fits
  refine ⟨sized, ?_, ?_, route_ascending _ _ blocks after route tidy below apart⟩
  · intro block member
    rcases route_members _ _ _ _ _ route block member with old | rfl | ⟨old, belongs, _, rfl⟩
    · exact tidy.nonempty block old
    · exact range.nonempty
    · have positive := tidy.nonempty old belongs
      simp only [Block.extend, List.length_append]
      omega
  · intro block member
    rcases route_members _ _ _ _ _ route block member with old | rfl | ⟨old, belongs, touching, rfl⟩
    · exact tidy.within block old
    · exact fits
    · have ends := (wrapped_end_eq old _ (tidy.sized old belongs) (below old belongs)).mp touching
      simp only [Segment.stop, Block.segment_start, Block.segment_items, extend_segment,
        List.length_append] at ends ⊢
      omega

/-- A range that ends below 2^32 leaves all blocks below 2^32. The next call finds the comparisons
exact again. -/
theorem route_below (address : u32) (bytes : List u8) (blocks after : List Block) (accepted : Bool)
    (route : Route address bytes blocks accepted after)
    (sized : ∀ block ∈ blocks, block.Sized) (below : Below blocks)
    (room : address.toNat + bytes.length < 2 ^ 32) : Below after := by
  intro block member
  rcases route_members _ _ _ _ _ route block member with old | rfl | ⟨old, belongs, touching, rfl⟩
  · exact below block old
  · exact room
  · have ends := (wrapped_end_eq old _ (sized old belongs) (below old belongs)).mp touching
    simp only [Segment.stop, Block.segment_start, Block.segment_items, extend_segment,
      List.length_append] at ends ⊢
    omega

/-! ## One call on a range apart from all blocks -/

/-- The number of bytes handed over is the number the code counts. A range is shorter than 2^32
bytes. -/
theorem Range.count_exact (range : Range) :
    (UInt32.ofNat range.bytes.length).toNat = range.bytes.length :=
  UInt32.toNat_ofNat_of_lt' range.countable

/-- The call hands over all bytes of the range. So the block holds all of them. -/
theorem Range.bytes_taken (range : Range) :
    range.bytes.take (UInt32.ofNat range.bytes.length).toNat = range.bytes := by
  rw [range.count_exact, List.take_length]

/-- The outcomes of one call, for the bytes of a whole range. It faults at an overflowing
extension or returns along a route. -/
theorem add_range_cases (heap : Heap Block) (hexFile : IntelHexFormat) (nodes : List BlockNode)
    (range : Range) (owns : Owns heap hexFile nodes) (generous : heap.Generous) :
    (addRange heap hexFile range = .error .outOfBounds ∧
      Overflows (values nodes) range.address range.bytes.length) ∨
    ∃ accepted changed relinked after,
      addRange heap hexFile range = .ok (accepted, changed, relinked) ∧
      Added heap hexFile nodes range.address range.bytes accepted changed relinked after := by
  have outcome := add_block_cases heap hexFile nodes range.address range.bytes
    (UInt32.ofNat range.bytes.length) owns generous (by rw [range.count_exact])
  rw [Outcome, range.bytes_taken, range.count_exact] at outcome
  exact outcome

/-- A range that ends below 2^32 never makes a block below 2^32 overflow. The block and the range
together end below 2^32. -/
theorem room_below (range : Range) (blocks : List Block) (sized : ∀ block ∈ blocks, block.Sized)
    (below : Below blocks) (room : range.segment.stop < 2 ^ 32) :
    ¬ Overflows blocks range.address range.bytes.length := by
  rintro ⟨front, block, back, rfl, touching, overflow, _⟩
  have ends := (wrapped_end_eq block _ (sized block (by simp)) (below block (by simp))).mp touching
  rw [block.segment_stop (sized block (by simp))] at ends
  rw [range.segment_stop] at room
  omega

/-- A return from adding a range apart from a tidy list below 2^32 has stored it: the
list stays tidy and the range overlays the map. -/
theorem added_fresh (heap changed : Heap Block) (hexFile relinked : IntelHexFormat)
    (nodes after : List BlockNode) (range : Range) (accepted : Bool)
    (added : Added heap hexFile nodes range.address range.bytes accepted changed relinked after)
    (tidy : Tidy (values nodes)) (below : Below (values nodes))
    (apart : ∀ block ∈ values nodes, block.segment.Apart range.segment) :
    accepted = true ∧ Tidy (values after) ∧
      (range.segment.stop < 2 ^ 32 → Below (values after)) ∧
      ∀ position, image (segments (values after)) position =
        overlay range.segment (image (segments (values nodes))) position := by
  obtain rfl := route_accepts _ _ _ _ _ added.route tidy.sized apart
  refine ⟨rfl, ?_, ?_, ?_⟩
  · exact route_tidy range _ _ added.route tidy below apart added.owns.sized
  · exact route_below _ _ _ _ _ added.route tidy.sized below
  · apply route_image _ _ _ _ added.route apart
    intro block member touching
    exact (wrapped_end_eq block _ (tidy.sized block member) (below block member)).mp touching

/-- A range apart from every block of a tidy list below 2^32 is stored: the call
returns `TRUE`, keeps the list tidy and overlays the map with the range. -/
theorem add_range_fresh (heap : Heap Block) (hexFile : IntelHexFormat) (blocks : List Block)
    (range : Range) (holds : Holds heap hexFile blocks) (generous : heap.Generous)
    (tidy : Tidy blocks) (below : Below blocks)
    (apart : ∀ block ∈ blocks, block.segment.Apart range.segment)
    (room : ¬ Overflows blocks range.address range.bytes.length) :
    ∃ changed relinked after,
      addRange heap hexFile range = .ok (true, changed, relinked) ∧
      Holds changed relinked after ∧ changed.Generous ∧ SameHeader hexFile relinked ∧
      Tidy after ∧ (range.segment.stop < 2 ^ 32 → Below after) ∧
      ∀ position, image (segments after) position =
        overlay range.segment (image (segments blocks)) position := by
  obtain ⟨nodes, owns, rfl⟩ := holds
  rcases add_range_cases heap hexFile nodes range owns generous with
    ⟨_, overflow⟩ | ⟨accepted, changed, relinked, after, result, added⟩
  · exact absurd overflow room
  · obtain ⟨rfl, stored⟩ := added_fresh heap changed hexFile relinked nodes after range accepted
      added tidy below apart
    exact ⟨changed, relinked, values after, result, ⟨after, added.owns, rfl⟩, added.generous,
      added.header, stored⟩

/-- A range is apart from nonempty blocks exactly when none of its addresses is stored. This
connects the order of segments with the map they hold. -/
theorem apart_iff_range (blocks : List Block) (range : Range)
    (nonempty : ∀ block ∈ blocks, 0 < block.data.length) :
    (∀ block ∈ blocks, block.segment.Apart range.segment) ↔
      ∀ position, range.segment.start ≤ position → position < range.segment.stop →
        image (segments blocks) position = none := by
  have positive : ∀ segment ∈ segments blocks, 0 < segment.items.length := by
    intro segment member
    obtain ⟨block, belongs, rfl⟩ := List.mem_map.mp member
    exact nonempty block belongs
  rw [← apart_iff_silent (segments blocks) range.segment positive range.nonempty]
  constructor
  · intro apart segment member
    obtain ⟨block, belongs, rfl⟩ := List.mem_map.mp member
    exact apart block belongs
  · intro apart block member
    exact apart block.segment (List.mem_map.mpr ⟨block, member, rfl⟩)

/-! ## Loading in any order -/

/-- Every range of a pairwise-apart list that ends below 2^32 is stored, whatever
the list already holds apart from them. The map afterwards is the one of all the
segments together. -/
theorem add_ranges_fresh (heap : Heap Block) (hexFile : IntelHexFormat) (blocks : List Block)
    (ranges : List Range) (holds : Holds heap hexFile blocks) (generous : heap.Generous)
    (tidy : Tidy blocks) (below : Below blocks)
    (distinct : (ranges.map Range.segment).Pairwise Segment.Apart)
    (apart : ∀ range ∈ ranges, ∀ block ∈ blocks, block.segment.Apart range.segment)
    (room : ∀ range ∈ ranges, range.segment.stop < 2 ^ 32) :
    ∃ changed relinked after,
      addRanges heap hexFile ranges = .ok (true, changed, relinked) ∧
      Holds changed relinked after ∧ changed.Generous ∧ SameHeader hexFile relinked ∧
      Tidy after ∧ Below after ∧
      ∀ position, image (segments after) position =
        image (ranges.map Range.segment ++ segments blocks) position := by
  induction ranges generalizing heap hexFile blocks with
  | nil => exact ⟨heap, hexFile, blocks, rfl, holds, generous, rfl, tidy, below, fun _ => rfl⟩
  | cons range rest inductionHypothesis =>
    have rangeRoom : range.segment.stop < 2 ^ 32 := room range (by simp)
    have rangeApart : ∀ block ∈ blocks, block.segment.Apart range.segment := apart range (by simp)
    obtain ⟨restApart, restDistinct⟩ := List.pairwise_cons.mp distinct
    obtain ⟨middle, between, stored, result, storedHolds, storedGenerous, header, storedTidy,
        storedBelow, storedImage⟩ :=
      add_range_fresh heap hexFile blocks range holds generous tidy below rangeApart
        (room_below range blocks tidy.sized below rangeRoom)
    obtain ⟨nodes, owns, rfl⟩ := holds
    have storedApart : ∀ other ∈ rest, ∀ block ∈ stored, block.segment.Apart other.segment := by
      intro other member
      -- Neither the range nor an old block covers a position of another range.
      apply (apart_iff_range stored other storedTidy.nonempty).mpr
      intro position begun inside
      have rangeSilent : range.segment.at? position = none := by
        have distinctRange := restApart other.segment (List.mem_map.mpr ⟨other, member, rfl⟩)
        apply (Segment.at_none_iff _ _).mpr
        rcases distinctRange with ends | begins
        · exact Or.inr (by omega)
        · exact Or.inl (by omega)
      have oldSilent := (apart_iff_range (values nodes) other tidy.nonempty).mp
        (apart other (by simp [member])) position begun inside
      rw [storedImage, overlay, rangeSilent, oldSilent]
      rfl
    obtain ⟨changed, relinked, after, restResult, afterHolds, afterGenerous, restHeader, afterTidy,
        afterBelow, afterImage⟩ :=
      inductionHypothesis middle between stored storedHolds storedGenerous storedTidy
        (storedBelow rangeRoom) restDistinct storedApart (fun other member =>
          room other (by simp [member]))
    refine ⟨changed, relinked, after, ?_, afterHolds, afterGenerous, ?_, afterTidy, afterBelow, ?_⟩
    · simp [addRanges, result, restResult]
    · rw [SameHeader, restHeader, header]
    · intro position
      have reordered := image_insert (rest.map Range.segment) (segments (values nodes))
        range.segment (fun segment member => (restApart segment member).symm) position
      rw [afterImage, image_append]
      simp only [List.map_cons, List.cons_append]
      rw [image_cons, image_append, storedImage, overlay]
      rw [image_append, image_cons, overlay, image_append] at reordered
      exact reordered

end EffiLib.IntelHex
