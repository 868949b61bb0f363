import EffiLib.IntelHex.BlockList

/-!
# Loading ranges in any order and noticing overlaps

Ranges that are pairwise apart and end below 2^32 load completely in every order.
The blocks left behind depend on the order; the address map does not.

The overlap test of the source looks at one neighbouring block, and not on every
route. `Caught` describes the overlapping calls it refuses. Runs whose calls are
either apart from the stored blocks or caught keep the list ascending; a call
that is neither is stored over bytes already there.
-/

namespace EffiLib.IntelHex

open Buffers LinkedHeap Segments

/-- Every order of pairwise-apart ranges loads without a refusal and leaves an ascending list, its
tail pointer at the last node, that maps exactly the bytes of the ranges at their addresses.
Proof: each range is apart from the blocks in front of it, so its call stores it, and the union of
the segments does not depend on their order. -/
theorem loading_any_order (heap : Heap Block) (hexFile : IntelHexFormat)
    (ranges order : List Range) (generous : heap.Generous)
    (headNull : hexFile.blockHead = none) (tailNull : hexFile.blockTail = none)
    (reordered : order.Perm ranges)
    (distinct : (ranges.map Range.segment).Pairwise Segment.Apart)
    (room : ∀ range ∈ ranges, range.address.toNat + range.bytes.length < 2 ^ 32) :
    ∃ changed relinked nodes,
      addRanges heap hexFile order = .ok (true, changed, relinked) ∧
      Owns changed relinked nodes ∧ Ascending (segments (values nodes)) ∧
      relinked.blockTail = nodes.getLast?.map Prod.fst ∧
      ∀ position, image (segments (values nodes)) position =
        image (ranges.map Range.segment) position := by
  have mapped : (order.map Range.segment).Perm (ranges.map Range.segment) := reordered.map _
  have orderDistinct : (order.map Range.segment).Pairwise Segment.Apart :=
    mapped.symm.pairwise distinct (fun apart => apart.symm)
  obtain ⟨changed, relinked, after, result, ⟨nodes, owns, rfl⟩, _, _, tidy, _, loaded⟩ :=
    add_ranges_fresh heap hexFile [] order ⟨[], owns_nothing heap hexFile headNull tailNull, rfl⟩
      generous tidy_nil (by simp [Below]) orderDistinct (by simp)
      (fun range member => room range (reordered.mem_iff.mp member))
  refine ⟨changed, relinked, nodes, result, owns, tidy.ascending, owns.tail, ?_⟩
  intro position
  rw [loaded, segments_nil, List.append_nil]
  exact image_perm _ _ mapped orderDistinct position

/-- Three ranges in ascending order, the last two of them touching. Loaded in any order they come
out the same. -/
def stairs : List Range :=
  [⟨0, [1], by decide, by decide, by decide⟩, ⟨2, [3, 4], by decide, by decide, by decide⟩,
    ⟨4, [5, 6], by decide, by decide, by decide⟩]

/-- Loaded from the top down, the touching ranges stay two blocks. Loaded upwards they would be
one. -/
theorem stairs_downwards :
    ∃ changed relinked nodes,
      addRanges ⟨[], fun _ => true⟩ .zero stairs.reverse = .ok (true, changed, relinked) ∧
      Owns changed relinked nodes ∧ Ascending (segments (values nodes)) ∧
      relinked.blockTail = nodes.getLast?.map Prod.fst ∧
      ∀ position, image (segments (values nodes)) position =
        image (stairs.map Range.segment) position :=
  loading_any_order _ _ stairs _ (fun _ => rfl) rfl rfl (List.reverse_perm stairs)
    (by simp [stairs, Segment.Apart, Segment.stop, Range.segment]) (by simp [stairs])

/-! ## Overlaps -/

/-- Some address of the range is already stored. The overlap is one of addresses, not of
blocks. -/
def Meets (blocks : List Block) (range : Range) : Prop :=
  ∃ position, range.segment.start ≤ position ∧ position < range.segment.stop ∧
    image (segments blocks) position ≠ none

/-- The circumstances in which the overlap test sees an overlap. No block may end
where the range begins, since that block would be extended without a test. If some
block ends below the range, the end of the range must not wrap to zero; otherwise
the range must begin inside the lowest block rather than at or below its start. -/
def Caught (blocks : List Block) (range : Range) : Prop :=
  (∀ block ∈ blocks, block.segment.stop ≠ range.segment.start) ∧
    (((∃ block ∈ blocks, block.segment.stop < range.segment.start) ∧
        range.segment.stop < 2 ^ 32) ∨
      ((∀ block ∈ blocks, range.segment.start < block.segment.stop) ∧
        ∃ head ∈ blocks.head?, head.segment.start < range.segment.start))

/-- No block ends at 2^32, and the range is apart from the blocks or caught. An overlap may
therefore be asked for, as long as the test of the code sees it. -/
def Admissible (blocks : List Block) (range : Range) : Prop :=
  Below blocks ∧ (Meets blocks range → Caught blocks range)

/-- An accepted call whose overlap would be caught has none: on every accepting
route the caught conditions leave no block that could share an address. -/
theorem caught_refused (range : Range) (blocks after : List Block)
    (route : Route range.address range.bytes blocks true after) (tidy : Tidy blocks)
    (below : Below blocks) (caught : Caught blocks range) :
    ∀ block ∈ blocks, block.segment.Apart range.segment := by
  obtain ⟨untouched, tested⟩ := caught
  have exactEnd : ∀ block ∈ blocks, block.wrappedEnd ≠ range.address := by
    intro block member touching
    exact untouched block member
      ((wrapped_end_eq block _ (tidy.sized block member) (below block member)).mp touching)
  have earlier : ∀ (front : List Block) (last : Block) (back : List Block),
      blocks = front ++ last :: back → last.wrappedEnd < range.address →
      ∀ block ∈ front ++ [last], block.segment.Apart range.segment := by
    intro front last back split behind block member
    subst split
    exact Or.inl (front_ends_below range.address front back last tidy below behind block member)
  generalize same : true = accepted at route
  cases route with
  | first => simp
  | appendTail front tail touching => exact absurd touching (exactEnd tail (by simp))
  | afterTail front tail behind => exact earlier front tail [] rfl behind
  | appendInner front inside back tail inner _ touching =>
    exact absurd touching (exactEnd inside (by simp))
  | refuseNext => exact absurd same (by simp)
  | refuseHead => exact absurd same (by simp)
  | between front early late back _ behind ahead clear =>
    have ends := (wrapped_end_lt early _ (tidy.sized early (by simp)) (below early (by simp))).mp
      behind
    have unwrapped : range.segment.stop < 2 ^ 32 := by
      rcases tested with ⟨_, inside⟩ | ⟨all, _⟩
      · exact inside
      · have after := all early (by simp)
        simp only [Range.segment_start] at after
        omega
    rw [Range.segment_stop] at unwrapped
    rw [UInt32.lt_iff_toNat_lt, UInt32.toNat_add, range.count_exact, Nat.mod_eq_of_lt unwrapped]
      at clear
    have ascending := tidy.ascending
    intro block member
    rcases List.mem_append.mp member with inFront | inBack
    · exact earlier front early (late :: back) rfl behind block (by simp [inFront])
    · rcases List.mem_cons.mp inBack with rfl | later
      · exact earlier front block (late :: back) rfl behind block (by simp)
      · apply Or.inr
        have regroup : segments (front ++ early :: late :: back) =
            segments (front ++ [early]) ++ late.segment :: segments back := by simp
        rw [regroup, ascending_split] at ascending
        have spans := late.segment.start_le_stop
        rcases List.mem_cons.mp later with rfl | further
        · simp only [Range.segment_stop, Block.segment_start]
          omega
        · have begins := ascending.2.2 block.segment (List.mem_map.mpr ⟨block, further, rfl⟩)
          simp only [Range.segment_stop, Block.segment_start] at begins spans ⊢
          omega
  | before head rest ahead clear =>
    rcases tested with ⟨⟨block, member, ends⟩, _⟩ | ⟨_, other, first, begins⟩
    · have above := (lt_wrapped_end block _ (tidy.sized block member) (below block member)).mp
        (ahead block member)
      simp only [Range.segment_start] at ends
      omega
    · have sameHead : other = head := by simpa using first.symm
      subst sameHead
      rw [UInt32.lt_iff_toNat_lt] at clear
      exact absurd begins clear

/-- An overlap that is not caught is stored: both refusals happen in caught circumstances only.
Proof: each of the two refusing routes gives one of the cases of `Caught`. -/
theorem uncaught_stored (range : Range) (blocks after : List Block) (accepted : Bool)
    (route : Route range.address range.bytes blocks accepted after) (tidy : Tidy blocks)
    (below : Below blocks) (uncaught : ¬ Caught blocks range) : accepted = true := by
  cases route with
  | first => rfl
  | appendTail => rfl
  | afterTail => rfl
  | appendInner => rfl
  | between => rfl
  | before => rfl
  | refuseNext front early late back untouched behind ahead overlapped =>
    refine absurd ⟨?_, Or.inl ⟨⟨early, by simp, ?_⟩, ?_⟩⟩ uncaught
    · intro block member ends
      have touching := (wrapped_end_eq block range.address (tidy.sized block member)
        (below block member)).mpr ends
      rcases List.mem_append.mp member with inFront | inBack
      · exact untouched block inFront touching
      · rcases List.mem_cons.mp inBack with rfl | later
        · exact (UInt32.ne_of_lt behind) touching
        · exact (UInt32.ne_of_lt (ahead block later)) touching.symm
    · exact (wrapped_end_lt early _ (tidy.sized early (by simp)) (below early (by simp))).mp behind
    · -- A sum of exactly 2^32 wraps to zero, which exceeds no address.
      have fits := range.fits
      by_contra atTop
      have wraps : (range.address.toNat + range.bytes.length) % 2 ^ 32 = 0 := by
        rw [Range.segment_stop] at atTop
        omega
      rw [UInt32.lt_iff_toNat_lt, UInt32.toNat_add, range.count_exact, wraps] at overlapped
      omega
  | refuseHead head rest ahead overlapped =>
    have above : ∀ block ∈ head :: rest, range.segment.start < block.segment.stop := by
      intro block member
      exact (lt_wrapped_end block _ (tidy.sized block member) (below block member)).mp
        (ahead block member)
    refine absurd ⟨?_, Or.inr ⟨above, head, rfl, UInt32.lt_iff_toNat_lt.mp overlapped⟩⟩ uncaught
    intro block member
    exact Nat.ne_of_gt (above block member)

/-- The block list is in strictly ascending address order and no block reaches into a later one.
No address has two bytes then. -/
def Orderly (heap : Heap Block) (hexFile : IntelHexFormat) : Prop :=
  ∃ blocks, Holds heap hexFile blocks ∧
    blocks.Pairwise (fun early late => early.address < late.address) ∧ Ascending (segments blocks)

/-- Tidy lists are orderly, because nonempty blocks separate their starts. An empty block could
share its start with another. -/
theorem tidy_orderly (heap : Heap Block) (hexFile : IntelHexFormat) (blocks : List Block)
    (holds : Holds heap hexFile blocks) (tidy : Tidy blocks) : Orderly heap hexFile := by
  refine ⟨blocks, holds, ?_, tidy.ascending⟩
  have ordered := List.pairwise_map.mp tidy.ascending
  refine (List.pairwise_iff_getElem.mpr ?_)
  intro left right leftInside rightInside before
  have ends := (List.pairwise_iff_getElem.mp ordered) left right leftInside rightInside before
  have positive := tidy.nonempty blocks[left] (List.getElem_mem leftInside)
  simp only [Segment.stop, Block.segment_start, Block.segment_items] at ends
  rw [UInt32.lt_iff_toNat_lt]
  omega

/-- Each call of a run is admissible in the state it finds. A refused call ends the run, so
nothing is asked of the calls behind it. -/
def Conforming (heap : Heap Block) (hexFile : IntelHexFormat) : List Range → Prop
  | [] => True
  | range :: rest =>
    (∀ blocks, Holds heap hexFile blocks → Admissible blocks range) ∧
      ∀ changed relinked, addRange heap hexFile range = .ok (true, changed, relinked) →
        Conforming changed relinked rest

/-- An admissible call that returns `TRUE` stored a range apart from all blocks, and
the list stays tidy. -/
theorem admissible_step (heap changed : Heap Block) (hexFile relinked : IntelHexFormat)
    (blocks : List Block) (range : Range) (holds : Holds heap hexFile blocks)
    (generous : heap.Generous) (tidy : Tidy blocks) (admissible : Admissible blocks range)
    (returned : addRange heap hexFile range = .ok (true, changed, relinked)) :
    ¬ Meets blocks range ∧ ∃ after, Holds changed relinked after ∧ changed.Generous ∧
      Tidy after := by
  obtain ⟨nodes, owns, rfl⟩ := holds
  obtain ⟨below, tested⟩ := admissible
  rcases add_range_cases heap hexFile nodes range owns generous with
    ⟨faulted, _⟩ | ⟨accepted, others, following, after, result, added⟩
  · rw [faulted] at returned
    exact absurd returned (by simp)
  · rw [result] at returned
    obtain ⟨rfl, rfl, rfl⟩ : accepted = true ∧ others = changed ∧ following = relinked := by
      simpa using returned
    have apart : ∀ block ∈ values nodes, block.segment.Apart range.segment := by
      by_cases meets : Meets (values nodes) range
      · exact caught_refused range _ _ added.route tidy below (tested meets)
      · apply (apart_iff_range _ range tidy.nonempty).mpr
        intro position begun inside
        by_contra mapped
        exact meets ⟨position, begun, inside, mapped⟩
    refine ⟨?_, values after, ⟨after, added.owns, rfl⟩, added.generous,
      route_tidy range _ _ added.route tidy below apart added.owns.sized⟩
    rintro ⟨position, begun, inside, mapped⟩
    exact mapped ((apart_iff_range _ range tidy.nonempty).mp apart position begun inside)

/-- The states of conforming runs keep the invariant. The induction follows the
calls; each accepted one hands a tidy list to the next. -/
theorem conforming_tidy (heap changed : Heap Block) (hexFile relinked : IntelHexFormat)
    (blocks : List Block) (ranges : List Range) (holds : Holds heap hexFile blocks)
    (generous : heap.Generous) (tidy : Tidy blocks) (conforming : Conforming heap hexFile ranges)
    (returned : addRanges heap hexFile ranges = .ok (true, changed, relinked)) :
    ∃ after, Holds changed relinked after ∧ changed.Generous ∧ Tidy after := by
  induction ranges generalizing heap hexFile blocks with
  | nil =>
    obtain ⟨rfl, rfl⟩ : heap = changed ∧ hexFile = relinked := by simpa [addRanges] using returned
    exact ⟨blocks, holds, generous, tidy⟩
  | cons range rest inductionHypothesis =>
    obtain ⟨admissible, following⟩ := conforming
    obtain ⟨⟨accepted, middle, between⟩, first, remaining⟩ := (bind_ok_iff _ _ _).mp returned
    cases accepted with
    | false => simp at remaining
    | true =>
      obtain ⟨_, stored, storedHolds, storedGenerous, storedTidy⟩ :=
        admissible_step heap middle hexFile between blocks range holds generous tidy
          (admissible blocks holds) first
      exact inductionHypothesis middle between stored storedHolds storedGenerous storedTidy
        (following middle between first) (by simpa using remaining)

/-- Overlap detection over runs. When every call of a run that returned `TRUE`
throughout was admissible in the state it found, the list is orderly afterwards,
and the next admissible call that meets a stored address does not return `TRUE`. -/
theorem conforming_run_orderly (heap changed : Heap Block) (hexFile relinked : IntelHexFormat)
    (ranges : List Range) (generous : heap.Generous)
    (headNull : hexFile.blockHead = none) (tailNull : hexFile.blockTail = none)
    (conforming : Conforming heap hexFile ranges)
    (returned : addRanges heap hexFile ranges = .ok (true, changed, relinked)) :
    Orderly changed relinked ∧
      ∀ (range : Range) (blocks : List Block), Holds changed relinked blocks →
        Admissible blocks range → Meets blocks range →
        ∀ further following, addRange changed relinked range ≠ .ok (true, further, following) := by
  obtain ⟨after, holds, stillGenerous, tidy⟩ :=
    conforming_tidy heap changed hexFile relinked [] ranges
      ⟨[], owns_nothing heap hexFile headNull tailNull, rfl⟩ generous tidy_nil conforming returned
  refine ⟨tidy_orderly changed relinked after holds tidy, ?_⟩
  intro range blocks sameHolds admissible meets further following accepted
  obtain rfl := holds_unique changed relinked blocks after sameHolds holds
  exact (admissible_step changed further relinked following blocks range holds stillGenerous tidy
    admissible accepted).1 meets

/-- Two bytes stored at 16, then one more byte at 16: the second call returns
`TRUE` and the list holds address 16 twice. -/
theorem repeated_address_stored :
    ∃ changed relinked,
      addRanges ⟨[], fun _ => true⟩ .zero
        [⟨16, [1, 2], by decide, by decide, by decide⟩,
          ⟨16, [3], by decide, by decide, by decide⟩] =
          .ok (true, changed, relinked) ∧
      ¬ Orderly changed relinked := by
  refine ⟨_, _, rfl, ?_⟩
  rintro ⟨blocks, ⟨nodes, owns, rfl⟩, ordered, _⟩
  have stored : nodes = [(1, ⟨16, 1, [3]⟩), (0, ⟨16, 2, [1, 2]⟩)] :=
    chain_unique _ _ _ _ owns.chain ⟨rfl, _, rfl, rfl, _, rfl, rfl⟩
  subst stored
  simp at ordered

/-- Two ranges apart from each other, the higher one first. The second goes in front of the
first. -/
def pair : List Range :=
  [⟨16, [1, 2], by decide, by decide, by decide⟩, ⟨8, [3], by decide, by decide, by decide⟩]

/-- Both calls on the pair are admissible. The list behind them is in order, although the calls
were not. -/
theorem pair_orderly :
    ∃ changed relinked,
      addRanges ⟨[], fun _ => true⟩ .zero pair = .ok (true, changed, relinked) ∧
      Orderly changed relinked := by
  refine ⟨_, _, rfl, (conforming_run_orderly ⟨[], fun _ => true⟩ _ .zero _ pair (fun _ => rfl)
    rfl rfl ⟨?_, fun changed relinked first => ⟨?_, fun _ _ _ => trivial⟩⟩ rfl).1⟩
  · rintro blocks ⟨nodes, owns, rfl⟩
    have nothing : nodes = [] := chain_unique _ _ _ _ owns.chain rfl
    subst nothing
    exact ⟨by simp [Below], by rintro ⟨position, _, _, mapped⟩; exact absurd rfl mapped⟩
  · rintro blocks ⟨nodes, owns, rfl⟩
    obtain ⟨-, rfl, rfl⟩ : true = true ∧ _ = changed ∧ _ = relinked := by
      simpa only [Prod.mk.injEq] using Except.ok.inj first
    have stored : nodes = [(0, ⟨16, 2, [1, 2]⟩)] :=
      chain_unique _ _ _ _ owns.chain ⟨rfl, _, rfl, rfl⟩
    subst stored
    refine ⟨by simp [Below, Segment.stop, Block.segment], ?_⟩
    rintro ⟨position, begun, inside, mapped⟩
    have silent : image (segments (values [(0, ⟨16, 2, [1, 2]⟩)])) position = none := by
      apply (image_none_iff _ _).mpr
      simp [Segment.stop, Range.segment, Block.segment] at inside ⊢
      omega
    exact absurd silent mapped

end EffiLib.IntelHex
