import EffiLib.IntelHex.BlockList

/-!
# Filling gaps

`IntelHexFileFillEmptyValue` puts a block of filler bytes between two neighbours that
do not touch. The pointer then moves to the new block, which touches its successor by
construction, and the loop ends at the first pair without a gap. So it fills the gap
behind the first block and no other.
-/

namespace EffiLib.IntelHex

open Buffers LinkedHeap Segments

/-- `gap_len`, computed modulo 2^32. Between blocks in order that do not overlap this is the true
length. -/
def gapLength (early late : Block) : u32 := late.address - early.address - early.length

/-- The block that fills the gap behind another. It begins at the machine end of the earlier
block. -/
def gapBlock (emptyValue : u8) (early late : Block) : Block :=
  ⟨early.address + early.length, gapLength early late,
    List.replicate (gapLength early late).toNat emptyValue⟩

/-- The loop of `IntelHexFileFillEmptyValue`. The data is requested before the block. Behind a
filled gap the pointer stands at the new block, whose successor it touches. -/
def fillLoop (emptyValue : u8) : Nat → Heap Block → Option Nat → u32 → Run (u32 × Heap Block)
  | 0, _, _, _ => .error .unfinished
  | _ + 1, heap, none, count => .ok (count, heap)
  | fuel + 1, heap, some pointer, count => do
    let node ← heap.read (some pointer)
    match node.next with
    | none => .ok (count, heap)
    | some next => do
      let following ← heap.read (some next)
      let gapLen := gapLength node.value following.value
      if gapLen = 0 then .ok (count, heap)
      else
        let (dataGranted, heap) := heap.request
        let (blockGranted, heap) := heap.request
        if blockGranted = false ∨ dataGranted = false then .ok (0, heap)
        else do
          let (tmp, heap) := heap.create ⟨gapBlock emptyValue node.value following.value, some next⟩
          let heap ← heap.write (some pointer) { node with next := some tmp }
          fillLoop emptyValue fuel heap (some tmp) (count + gapLen)

/-- `IntelHexFileFillEmptyValue`; the result is the number of filler bytes. The structure itself
stays, as a filler never is the first or the last block. -/
def intelHexFileFillEmptyValue (heap : Heap Block) (ihf : IntelHexFormat) (emptyValue : u8) :
    Run (u32 × Heap Block) :=
  fillLoop emptyValue (heap.cells.length + 1) heap ihf.blockHead 0

/-- The list with the first gap filled. This is what the function does to the list. -/
def fillFirst (emptyValue : u8) : List Block → List Block
  | early :: late :: rest =>
    if gapLength early late = 0 then early :: late :: rest
    else early :: gapBlock emptyValue early late :: late :: rest
  | blocks => blocks

/-- The filler leaves no gap behind it. It is as long as the gap. -/
theorem gap_closed (emptyValue : u8) (early late : Block) :
    gapLength (gapBlock emptyValue early late) late = 0 := by
  simp only [gapLength, gapBlock]
  grind

/-- A block of the filled list is the filler or an old one. The others are as they were. -/
theorem filled_member (emptyValue : u8) (early late block : Block) (rest : List Block)
    (member : block ∈ early :: gapBlock emptyValue early late :: late :: rest) :
    block = gapBlock emptyValue early late ∨ block ∈ early :: late :: rest := by
  simpa [or_left_comm] using member

/-- At a pair without a gap the loop ends. The blocks behind it are not looked at. -/
theorem fill_loop_closed (emptyValue : u8) (fuel : Nat) (heap : Heap Block) (count : u32)
    (pointer nextPointer : Nat) (early late : Block) (after : Option Nat)
    (found : heap.stored pointer = some ⟨early, some nextPointer⟩)
    (nextFound : heap.stored nextPointer = some ⟨late, after⟩) (closed : gapLength early late = 0) :
    fillLoop emptyValue (fuel + 1) heap (some pointer) count = .ok (count, heap) := by
  simp only [fillLoop, heap.read_stored pointer _ found, heap.read_stored nextPointer _ nextFound,
    ok_bind, closed, if_true]

/-- At a pair with a gap the loop links the filler between them and goes on there. The next pass
sees no gap and ends the loop. -/
theorem fill_loop_open (emptyValue : u8) (fuel : Nat) (heap : Heap Block) (count : u32)
    (pointer nextPointer : Nat) (early late : Block) (after : Option Nat) (generous : heap.Generous)
    (found : heap.stored pointer = some ⟨early, some nextPointer⟩)
    (nextFound : heap.stored nextPointer = some ⟨late, after⟩) (gap : gapLength early late ≠ 0) :
    let made := heap.request.2.request.2.create ⟨gapBlock emptyValue early late, some nextPointer⟩
    fillLoop emptyValue (fuel + 1) heap (some pointer) count =
      fillLoop emptyValue fuel (made.2.put pointer ⟨early, some made.1⟩) (some made.1)
        (count + gapLength early late) := by
  intro made
  have first := heap.request_generous generous
  have second := heap.request.2.request_generous first.2
  have unmoved := heap.request.2.request.2.create_kept pointer _
    ⟨gapBlock emptyValue early late, some nextPointer⟩ found
  have written := made.2.write_stored pointer _ ⟨early, some made.1⟩ unmoved
  rw [fillLoop]
  simp only [heap.read_stored pointer _ found, heap.read_stored nextPointer _ nextFound, ok_bind,
    gap, if_false, first.1, second.1, reduceCtorEq, or_self]
  exact congrArg (· >>= fun linked => fillLoop emptyValue fuel linked (some made.1)
    (count + gapLength early late)) written

/-- The filler bytes between the first two blocks. It is the count that the function returns. -/
def firstGap : List Block → u32
  | early :: late :: _ => gapLength early late
  | _ => 0

/-- With every allocation granted the call fills the gap behind the first block, if
there is one, and counts its bytes. -/
theorem fill_first_count (heap : Heap Block) (ihf : IntelHexFormat) (nodes : List BlockNode)
    (emptyValue : u8) (owns : Owns heap ihf nodes) (generous : heap.Generous) :
    ∃ changed after, intelHexFileFillEmptyValue heap ihf emptyValue =
        .ok (firstGap (values nodes), changed) ∧
      Owns changed ihf after ∧ changed.Generous ∧
      values after = fillFirst emptyValue (values nodes) := by
  have chain := owns.chain
  have fuel := chain_fuel heap _ _ chain
  rw [intelHexFileFillEmptyValue]
  match nodes with
  | [] =>
    have null : ihf.blockHead = none := chain
    exact ⟨heap, [], by rw [null]; rfl, owns, generous, rfl⟩
  | [(pointer, block)] =>
    obtain ⟨atHead, next, found, atEnd⟩ := chain
    obtain rfl : next = none := atEnd
    refine ⟨heap, [(pointer, block)], ?_, owns, generous, rfl⟩
    simp [atHead, fillLoop, heap.read_stored pointer _ found, firstGap]
  | (pointer, early) :: (latePointer, late) :: rest =>
    have whole := chain
    obtain ⟨atHead, next, found, rfl, further, lateFound, _⟩ := chain
    by_cases closed : gapLength early late = 0
    · refine ⟨heap, _, ?_, owns, generous, by simp [fillFirst, closed]⟩
      rw [atHead, values_cons, values_cons, firstGap, closed]
      exact fill_loop_closed emptyValue _ heap 0 pointer latePointer early late _ found lateFound
        closed
    · obtain ⟨size, enough⟩ : ∃ size, heap.cells.length = size + 1 := ⟨heap.cells.length - 1, by
        simp only [List.length_cons] at fuel
        omega⟩
      let base := heap.request.2.request.2
      let filler := gapBlock emptyValue early late
      let made := base.create ⟨filler, some latePointer⟩
      let changed := made.2.put pointer ⟨early, some made.1⟩
      obtain ⟨_, inserted⟩ := chain_insert base ihf.blockHead (some latePointer) []
        ((latePointer, late) :: rest) pointer early filler
        (chain_frame heap base _ _ _ (fun _ _ => rfl) whole) found
      obtain ⟨_, _, _, rfl, _, madeFound, rfl, _, againFound, _⟩ := id inserted
      refine ⟨changed, (pointer, early) :: (made.1, filler) :: (latePointer, late) :: rest, ?_,
        ⟨inserted, ?_, ?_⟩, fun later => generous (later + 1 + 1),
        by simp [fillFirst, closed, filler]⟩
      · have opened := fill_loop_open emptyValue heap.cells.length heap 0 pointer latePointer early
          late _ generous found lateFound closed
        rw [atHead, opened, enough, values_cons, values_cons, firstGap, UInt32.zero_add]
        exact fill_loop_closed emptyValue size changed _ made.1 latePointer filler late _ madeFound
          againFound (gap_closed emptyValue early late)
      · rw [owns.tail]
        simp
      · intro block member
        rcases filled_member emptyValue early late block (values rest) member with rfl | old
        · simp [Block.Sized, gapBlock]
        · exact owns.sized block old

/-- Between ascending blocks the wrapping arithmetic is exact. Neither end is past 2^32 then. -/
theorem gap_length_exact (early late : Block) (sized : early.Sized)
    (before : early.segment.stop ≤ late.segment.start) :
    (gapLength early late).toNat = late.segment.start - early.segment.stop ∧
      (early.address + early.length).toNat = early.segment.stop := by
  rw [early.segment_stop sized, Block.segment_start] at before ⊢
  have bound := late.address.toNat_lt
  have first : early.address ≤ late.address := UInt32.le_iff_toNat_le.mpr (by omega)
  have rest : early.length ≤ late.address - early.address := by
    rw [UInt32.le_iff_toNat_le, UInt32.toNat_sub_of_le _ _ first]
    omega
  constructor
  · rw [gapLength, UInt32.toNat_sub_of_le _ _ rest, UInt32.toNat_sub_of_le _ _ first]
    omega
  · rw [UInt32.toNat_add]
    omega

/-- Between ascending neighbours the filler spans what neither of them covers. It touches both of
them. -/
theorem gap_segment (emptyValue : u8) (early late : Block) (sized : early.Sized)
    (before : early.segment.stop ≤ late.segment.start) :
    (gapBlock emptyValue early late).segment.start = early.segment.stop ∧
      (gapBlock emptyValue early late).segment.stop = late.segment.start := by
  obtain ⟨length, address⟩ := gap_length_exact early late sized before
  have start : (gapBlock emptyValue early late).segment.start = early.segment.stop := address
  refine ⟨start, ?_⟩
  rw [Segment.stop, start]
  simp only [gapBlock, Block.segment_items, List.length_replicate]
  omega

/-- An ascending list stores nothing between its first two blocks. So the filler covers no
byte. -/
theorem between_silent (early late : Block) (rest : List Block) (position : Nat)
    (ascending : Ascending (segments (early :: late :: rest)))
    (above : early.segment.stop ≤ position) (below : position < late.segment.start) :
    image (segments (early :: late :: rest)) position = none := by
  obtain ⟨_, later⟩ := List.pairwise_cons.mp ascending
  apply (image_none_iff _ _).mpr
  intro segment member
  rcases List.mem_cons.mp member with rfl | deeper
  · exact Or.inr above
  · rcases List.mem_cons.mp deeper with rfl | inRest
    · exact Or.inl below
    · have behind := (List.pairwise_cons.mp later).1 segment inRest
      have spans := late.segment.start_le_stop
      exact Or.inl (by omega)

/-- The filled list is tidy when the old one is. The filler lies between its neighbours and
touches both. -/
theorem fill_tidy (emptyValue : u8) (blocks : List Block) (tidy : Tidy blocks) :
    Tidy (fillFirst emptyValue blocks) := by
  match blocks with
  | [] => exact tidy
  | [_] => exact tidy
  | early :: late :: rest =>
    by_cases closed : gapLength early late = 0
    · rw [fillFirst, if_pos closed]
      exact tidy
    · rw [fillFirst, if_neg closed]
      obtain ⟨ahead, later⟩ := List.pairwise_cons.mp tidy.ascending
      obtain ⟨start, stop⟩ := gap_segment emptyValue early late (tidy.sized early (by simp))
        (ahead late.segment (by simp))
      have positive : 0 < (gapLength early late).toNat := by
        refine Nat.pos_of_ne_zero fun zero => closed ?_
        rw [← UInt32.toNat_inj, zero]
        rfl
      refine ⟨?_, ?_, ?_, ?_⟩
      · intro block member
        rcases filled_member emptyValue early late block rest member with rfl | old
        · simp [Block.Sized, gapBlock]
        · exact tidy.sized block old
      · intro block member
        rcases filled_member emptyValue early late block rest member with rfl | old
        · simpa [gapBlock] using positive
        · exact tidy.nonempty block old
      · intro block member
        rcases filled_member emptyValue early late block rest member with rfl | old
        · exact stop ▸ late.segment.start_le_stop.trans (tidy.within late (by simp))
        · exact tidy.within block old
      · refine (ascending_split [early.segment] (segments (late :: rest)) _).mpr
          ⟨tidy.ascending, ?_, ?_⟩
        · intro segment member
          rw [List.mem_singleton.mp member, start]
        · intro segment member
          rw [stop]
          rcases List.mem_cons.mp member with rfl | inRest
          · exact Nat.le_refl _
          · exact late.segment.start_le_stop.trans ((List.pairwise_cons.mp later).1 segment inRest)

/-- The filled list keeps every byte of a tidy one. It is enough to look at the segments in front
of the position. -/
theorem fill_keeps (emptyValue : u8) (blocks : List Block) (tidy : Tidy blocks) (position : Nat)
    (byte : u8) (stored : image (segments blocks) position = some byte) :
    image (segments (fillFirst emptyValue blocks)) position = some byte := by
  match blocks with
  | [] => exact stored
  | [_] => exact stored
  | early :: late :: rest =>
    by_cases closed : gapLength early late = 0
    · rw [fillFirst, if_pos closed]
      exact stored
    · rw [fillFirst, if_neg closed]
      obtain ⟨start, stop⟩ := gap_segment emptyValue early late (tidy.sized early (by simp))
        ((List.pairwise_cons.mp tidy.ascending).1 late.segment (by simp))
      have inserted := image_insert [early.segment] (segments (late :: rest))
        (gapBlock emptyValue early late).segment (by
          intro segment member
          rw [List.mem_singleton.mp member]
          exact Or.inl (Nat.le_of_eq start.symm)) position
      -- The filler covers only positions at which nothing was stored.
      have silent : (gapBlock emptyValue early late).segment.at? position = none := by
        apply (Segment.at_none_iff _ position).mpr
        rw [start, stop]
        by_contra covered
        rw [not_or, Nat.not_lt, Nat.not_le] at covered
        rw [between_silent early late rest position tidy.ascending covered.1 covered.2] at stored
        exact absurd stored (by simp)
      rw [overlay, silent, Option.none_or] at inserted
      exact inserted.trans stored

/-! ## Closing every gap -/

/-- One image without gaps: from the first address to the last end everything is covered,
old bytes are kept and the others hold the fill value, which were counted. -/
structure Filled (emptyValue : u8) (blocks after : List Block) (count : u32) : Prop where
  contiguous : Contiguous (segments after)
  covers : ∀ position, (image (segments after) position).isSome ↔
    Spans (segments blocks) position
  keeps : ∀ position byte, image (segments blocks) position = some byte →
    image (segments after) position = some byte
  fills : ∀ position byte, image (segments blocks) position = none →
    image (segments after) position = some byte → byte = emptyValue
  counts : count.toNat = gapTotal (segments blocks)

/-- The call returns and leaves one image without gaps. It is what the name of the function
promises. -/
def FillsAll (heap : Heap Block) (ihf : IntelHexFormat) (emptyValue : u8)
    (blocks : List Block) : Prop :=
  ∃ count changed after, intelHexFileFillEmptyValue heap ihf emptyValue = .ok (count, changed) ∧
    Owns changed ihf after ∧ Filled emptyValue blocks (values after) count

/-- Where only the filled list answers, the answer is the fill value. No byte of a block is
covered by a filler, so nothing else is added. -/
theorem fill_adds (emptyValue : u8) (blocks : List Block) (position : Nat) (byte : u8)
    (silent : image (segments blocks) position = none)
    (stored : image (segments (fillFirst emptyValue blocks)) position = some byte) :
    byte = emptyValue := by
  match blocks with
  | [] => simp [fillFirst] at stored
  | [block] =>
    rw [fillFirst, silent] at stored
    · simp at stored
    · simp
  | early :: late :: rest =>
    by_cases closed : gapLength early late = 0
    · rw [fillFirst, if_pos closed, silent] at stored
      simp at stored
    · rw [fillFirst, if_neg closed] at stored
      rw [segments_cons, image_cons, Option.or_eq_none_iff] at silent
      rw [segments_cons, segments_cons, image_cons, image_cons, silent.1, silent.2, Option.or_none,
        Option.none_or] at stored
      obtain ⟨begun, inside⟩ :=
        ((gapBlock emptyValue early late).segment.at_is_some_iff position).mp (by rw [stored]; rfl)
      rw [Segment.at?, if_pos begun] at stored
      exact List.eq_of_mem_replicate (List.mem_of_getElem? stored)

/-- With the first gap filled, the ends of the list are the old ones. The filler lies between the
two. -/
theorem fill_spans (emptyValue : u8) (blocks : List Block) (position : Nat) :
    Spans (segments (fillFirst emptyValue blocks)) position ↔ Spans (segments blocks) position := by
  match blocks with
  | [] => rfl
  | [_] => rfl
  | early :: late :: rest =>
    by_cases closed : gapLength early late = 0
    · rw [fillFirst, if_pos closed]
    · rw [fillFirst, if_neg closed]
      simp only [Spans, segments_cons, List.head?_cons, List.getLast?_cons_cons]

/-- The filled list is contiguous exactly when the old one is behind its first block. The first
block touches what follows it in any case. -/
theorem fill_contiguous (emptyValue : u8) (blocks : List Block) (tidy : Tidy blocks) :
    Contiguous (segments (fillFirst emptyValue blocks)) ↔ Contiguous (segments blocks).tail := by
  match blocks with
  | [] => simp [fillFirst, Contiguous]
  | [_] => simp [fillFirst, Contiguous]
  | early :: late :: rest =>
    have before := (List.pairwise_cons.mp tidy.ascending).1 late.segment (by simp)
    have sized := tidy.sized early (by simp)
    by_cases closed : gapLength early late = 0
    · have exact := (gap_length_exact early late sized before).1
      have touching : early.segment.stop = late.segment.start := by
        rw [closed] at exact
        have zero : late.segment.start - early.segment.stop = 0 := exact.symm
        omega
      rw [fillFirst, if_pos closed]
      exact ⟨fun whole => whole.tail, fun later => List.isChain_cons_cons.mpr ⟨touching, later⟩⟩
    · obtain ⟨start, stop⟩ := gap_segment emptyValue early late sized before
      rw [fillFirst, if_neg closed]
      constructor
      · intro whole
        exact whole.tail.tail
      · intro later
        exact List.isChain_cons_cons.mpr ⟨start.symm, List.isChain_cons_cons.mpr ⟨stop, later⟩⟩

/-- If no gap is left, the first one was the only one. So the count that is returned is the number
of all bytes missing. -/
theorem fill_counts (blocks : List Block) (tidy : Tidy blocks)
    (later : Contiguous (segments blocks).tail) :
    (firstGap blocks).toNat = gapTotal (segments blocks) := by
  match blocks with
  | [] => rfl
  | [_] => rfl
  | early :: late :: rest =>
    have before := (List.pairwise_cons.mp tidy.ascending).1 late.segment (by simp)
    have exact := (gap_length_exact early late (tidy.sized early (by simp)) before).1
    rw [firstGap, exact, segments_cons, segments_cons, gapTotal]
    have rest := contiguous_gap_total _ later
    rw [segments_cons, segments_cons, List.tail_cons] at rest
    rw [rest, Nat.add_zero]

/-- For tidy lists the call closes every gap exactly when all blocks behind the first one
touch: it fills the gap behind the first block and then stands in front of a pair that
touches, which ends the loop. -/
theorem fill_every_gap (heap : Heap Block) (ihf : IntelHexFormat) (nodes : List BlockNode)
    (emptyValue : u8) (owns : Owns heap ihf nodes) (generous : heap.Generous)
    (tidy : Tidy (values nodes)) :
    FillsAll heap ihf emptyValue (values nodes) ↔ Contiguous (segments (values nodes)).tail := by
  obtain ⟨changed, after, returned, ownsAfter, _, filled⟩ :=
    fill_first_count heap ihf nodes emptyValue owns generous
  rw [← fill_contiguous emptyValue (values nodes) tidy]
  constructor
  · rintro ⟨count, others, listed, result, ownsListed, fills⟩
    rw [returned] at result
    obtain ⟨rfl, rfl⟩ := Prod.mk.inj (Except.ok.inj result)
    rw [← filled, owns_unique changed ihf after listed ownsAfter ownsListed]
    exact fills.contiguous
  · intro contiguous
    refine ⟨_, changed, after, returned, ownsAfter, ?_⟩
    rw [filled]
    refine ⟨contiguous, ?_, fill_keeps emptyValue _ tidy, fill_adds emptyValue _, ?_⟩
    · intro position
      rw [contiguous_covers _ contiguous, fill_spans]
    · exact fill_counts _ tidy ((fill_contiguous emptyValue _ tidy).mp contiguous)

/-- Blocks of one byte each, linked in order; the structure points to both ends. They have gaps
wherever the addresses skip one. -/
def byteBlocks (addresses : List u32) : List Block := addresses.map fun address => ⟨address, 1, [7]⟩

/-- Two blocks with one gap are filled completely. Behind the first block there is no other
gap. -/
theorem one_gap_filled :
    FillsAll (listHeap (byteBlocks [0, 2])) (listFile 1) 0xFF (byteBlocks [0, 2]) :=
  (fill_every_gap (listHeap (byteBlocks [0, 2])) (listFile 1) [(0, ⟨0, 1, [7]⟩), (1, ⟨2, 1, [7]⟩)]
    0xFF ⟨⟨rfl, some 1, rfl, rfl, none, rfl, rfl⟩, rfl, by simp [Block.Sized]⟩ (fun _ => rfl)
    ⟨by simp [Block.Sized], by simp, by simp [Segment.stop],
      by simp [Ascending, Segment.stop]⟩).mpr (List.isChain_singleton _)

/-- Of two gaps only the first is filled. The gap behind address 2 stays. -/
theorem second_gap_left :
    Owns (listHeap (byteBlocks [0, 2, 4])) (listFile 2)
      [(0, ⟨0, 1, [7]⟩), (1, ⟨2, 1, [7]⟩), (2, ⟨4, 1, [7]⟩)] ∧
    (listHeap (byteBlocks [0, 2, 4])).Generous ∧
    Tidy (byteBlocks [0, 2, 4]) ∧ Below (byteBlocks [0, 2, 4]) ∧
    ¬ FillsAll (listHeap (byteBlocks [0, 2, 4])) (listFile 2) 0xFF (byteBlocks [0, 2, 4]) := by
  refine ⟨⟨⟨rfl, some 1, rfl, rfl, some 2, rfl, rfl, none, rfl, rfl⟩, rfl, by simp [Block.Sized]⟩,
    fun _ => rfl, ⟨by simp [byteBlocks, Block.Sized], by simp [byteBlocks],
      by simp [byteBlocks, Segment.stop], by simp [byteBlocks, Ascending, Segment.stop]⟩,
    by simp [Below, byteBlocks, Segment.stop], ?_⟩
  rintro ⟨count, changed, after, result, _, fills⟩
  have returned : (intelHexFileFillEmptyValue (listHeap (byteBlocks [0, 2, 4])) (listFile 2)
      0xFF).map Prod.fst = .ok 1 := rfl
  rw [result] at returned
  obtain rfl : count = 1 := Except.ok.inj returned
  have counted : (1 : u32).toNat = 2 := fills.counts
  exact absurd counted (by decide)

end EffiLib.IntelHex
