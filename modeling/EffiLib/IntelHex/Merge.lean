import EffiLib.IntelHex.BlockList

/-!
# Merging two files

`intelHexFileMerge` joins the block lists of two files by linking the last block of
the lower one to the first block of the higher one. It decides which one is lower by
comparing the first address of the first file with the machine end of the second, and
looks for an overlap by the machine end of the lower one. Two files that are both
nonempty are joined by one rule, `splice`, in one of the two orders.
-/

namespace EffiLib.IntelHex

open Buffers LinkedHeap Segments

/-- The part of the merge behind the exchange: the overlap test, and linking the list
of the second structure behind the first. -/
def splice (heap : Heap Block) (ihf1 ihf2 : IntelHexFormat) :
    Run (Bool × Heap Block × IntelHexFormat × IntelHexFormat) := do
  let tail ← heap.read ihf1.blockTail
  let head ← heap.read ihf2.blockHead
  if tail.value.wrappedEnd > head.value.address then .ok (false, heap, ihf1, ihf2)
  else do
    let heap ← heap.write ihf1.blockTail { tail with next := ihf2.blockHead }
    .ok (true, heap,
      { ihf1 with
        blockTail := ihf2.blockTail
        totalLength := ihf1.totalLength + ihf2.totalLength
        startLinearAddress := 0xFFFFFFFF },
      { ihf2 with blockHead := none, blockTail := none, totalLength := 0 })

/-- `IntelHexFileMerge` on two structures. With a first file that has no blocks the
source assigns its local pointer, which changes neither structure. The exchange
copies the structures, so their list pointers change places. -/
def intelHexFileMerge (heap : Heap Block) (ihf1 ihf2 : IntelHexFormat) :
    Run (Bool × Heap Block × IntelHexFormat × IntelHexFormat) :=
  if ihf1.endOfFile = false ∨ ihf2.endOfFile = false then .ok (false, heap, ihf1, ihf2)
  else if ihf1.fileMode ≠ ihf2.fileMode then .ok (false, heap, ihf1, ihf2)
  else if ihf2.blockHead = none then .ok (true, heap, ihf1, ihf2)
  else if ihf1.blockHead = none then .ok (true, heap, ihf1, ihf2)
  else do
    let head ← heap.read ihf1.blockHead
    let tail ← heap.read ihf2.blockTail
    if head.value.address > tail.value.wrappedEnd then splice heap ihf2 ihf1
    else splice heap ihf1 ihf2

/-- The first address of a list of blocks. An empty list has 0, which the merge never looks at. -/
def lowest (blocks : List Block) : Nat := (blocks.head?.map fun head => head.segment.start).getD 0

/-- The integer end of the last block. It is a number, so 2^32 is not wrapped here. -/
def highest (blocks : List Block) : Nat :=
  (blocks.getLast?.map fun tail => tail.segment.stop).getD 0

/-- The structure owns ascending blocks below 2^32, and the end of the file was read. It asks
neither for start addresses nor for a total. -/
structure Arranged (heap : Heap Block) (hexFile : IntelHexFormat) (nodes : List BlockNode) :
    Prop where
  owns : Owns heap hexFile nodes
  ascending : Ascending (segments (values nodes))
  within : ∀ block ∈ values nodes, block.segment.stop ≤ 2 ^ 32
  ended : hexFile.endOfFile = true

/-- A file that can be merged as a whole: it is arranged, and the total is the number of its
bytes. -/
structure Complete (heap : Heap Block) (hexFile : IntelHexFormat) (nodes : List BlockNode) : Prop
    extends Arranged heap hexFile nodes where
  total : hexFile.totalLength.toNat = ((values nodes).map fun block => block.data.length).sum

/-- Two lists without a common node. Two structures that were loaded one after the other have no
common node. -/
def Separate (left right : List BlockNode) : Prop :=
  ∀ pointer ∈ left.map Prod.fst, pointer ∉ right.map Prod.fst

/-- Lists that share no node do so in either order. It says that no pointer is in both. -/
theorem Separate.symm {left right : List BlockNode} (separate : Separate left right) :
    Separate right left := fun pointer inRight inLeft => separate pointer inLeft inRight

/-- The highest address of a list is the end of its last block. Blocks are in ascending order. -/
theorem highest_concat (front : List Block) (tail : Block) :
    highest (front ++ [tail]) = tail.segment.stop := by
  simp [highest]

/-- The lowest address of a list is the start of its first block. Blocks are in ascending
order. -/
theorem lowest_cons (head : Block) (rest : List Block) :
    lowest (head :: rest) = head.segment.start := rfl

/-- What a joined pair of lists looks like: one list of all nodes, its tail pointer at
the end, and an empty second structure. -/
structure Spliced (ihf1 ihf2 : IntelHexFormat) (changed : Heap Block)
    (merged rest : IntelHexFormat) (nodes : List BlockNode) : Prop where
  owns : Owns changed merged nodes
  total : merged.totalLength = ihf1.totalLength + ihf2.totalLength
  emptied : rest.blockHead = none

section Merge

variable (heap : Heap Block) (ihf1 ihf2 : IntelHexFormat) (nodes1 nodes2 : List BlockNode)

/-- Two nonempty separate lists are joined unless the machine end of the first is above
the start of the second. -/
theorem splice_spec (owns1 : Owns heap ihf1 nodes1) (owns2 : Owns heap ihf2 nodes2)
    (separate : Separate nodes1 nodes2) (some1 : nodes1 ≠ []) (some2 : nodes2 ≠ []) :
    (lowest (values nodes2) < highest (values nodes1) % 2 ^ 32 →
      splice heap ihf1 ihf2 = .ok (false, heap, ihf1, ihf2)) ∧
    (highest (values nodes1) % 2 ^ 32 ≤ lowest (values nodes2) →
      ∃ changed merged rest, splice heap ihf1 ihf2 = .ok (true, changed, merged, rest) ∧
        Spliced ihf1 ihf2 changed merged rest (nodes1 ++ nodes2)) := by
  obtain ⟨front, ⟨pointer, tail⟩, rfl⟩ := (List.eq_nil_or_concat' nodes1).resolve_left some1
  cases nodes2 with
  | nil => exact absurd rfl some2
  | cons first back =>
    obtain ⟨headPointer, head⟩ := first
    obtain ⟨atTail, tailFound⟩ := tail_node heap ihf1 front pointer tail owns1
    obtain ⟨atHead, next, headFound, _⟩ := owns2.chain
    have tailSized := owns1.sized tail (by simp)
    have ends : highest (values (front ++ [(pointer, tail)])) % 2 ^ 32 = tail.wrappedEnd.toNat := by
      rw [tail.wrapped_end_mod tailSized, values_append]
      simp [highest]
    have begins : lowest (values ((headPointer, head) :: back)) = head.address.toNat := rfl
    rw [ends, begins, ← UInt32.lt_iff_toNat_lt, ← UInt32.le_iff_toNat_le]
    constructor
    · intro overlapped
      simp [splice, atTail, atHead, heap.read_stored pointer _ tailFound,
        heap.read_stored headPointer _ headFound, overlapped]
    · intro clear
      have untouched : ¬ tail.wrappedEnd > head.address := UInt32.not_lt.mpr clear
      have result : splice heap ihf1 ihf2 = .ok (true, heap.put pointer ⟨tail, ihf2.blockHead⟩,
          { ihf1 with
            blockTail := ihf2.blockTail
            totalLength := ihf1.totalLength + ihf2.totalLength
            startLinearAddress := 0xFFFFFFFF },
          { ihf2 with blockHead := none, blockTail := none, totalLength := 0 }) := by
        simp [splice, atTail, atHead, heap.read_stored pointer _ tailFound,
          heap.read_stored headPointer _ headFound, untouched,
          heap.write_stored pointer _ _ tailFound]
      refine ⟨_, _, _, result, ?_, rfl, rfl⟩
      · refine ⟨?_, ?_, ?_⟩
        · have joined := chain_splice heap ihf1.blockHead ihf2.blockHead front
            ((headPointer, head) :: back) pointer tail owns1.chain owns2.chain
              (separate pointer (by simp))
          simpa [atHead] using joined
        · have last : ((front ++ [(pointer, tail)]) ++ (headPointer, head) :: back).getLast? =
              ((headPointer, head) :: back).getLast? := by
            rw [List.getLast?_append, List.getLast?_cons]
            rfl
          rw [last]
          exact owns2.tail
        · intro block member
          rw [values_append] at member
          rcases List.mem_append.mp member with early | late
          · exact owns1.sized block early
          · exact owns2.sized block late

/-- The merge of two nonempty files is one of the two orders of joining them. The comparison is
the one of the code, with the end of the second list wrapped. -/
theorem merge_order (arranged1 : Arranged heap ihf1 nodes1) (arranged2 : Arranged heap ihf2 nodes2)
    (mode : ihf1.fileMode = ihf2.fileMode) (some1 : nodes1 ≠ []) (some2 : nodes2 ≠ []) :
    intelHexFileMerge heap ihf1 ihf2 =
      if highest (values nodes2) % 2 ^ 32 < lowest (values nodes1) then splice heap ihf2 ihf1
      else splice heap ihf1 ihf2 := by
  obtain ⟨front, ⟨pointer, tail⟩, rfl⟩ := (List.eq_nil_or_concat' nodes2).resolve_left some2
  cases nodes1 with
  | nil => exact absurd rfl some1
  | cons first back =>
    obtain ⟨headPointer, head⟩ := first
    obtain ⟨atTail, tailFound⟩ := tail_node heap ihf2 front pointer tail arranged2.owns
    obtain ⟨atHead, next, headFound, _⟩ := arranged1.owns.chain
    have present : ihf2.blockHead ≠ none := by
      rw [chain_first heap _ _ arranged2.owns.chain]
      cases front <;> simp
    have tailSized := arranged2.owns.sized tail (by simp)
    have ends : highest (values (front ++ [(pointer, tail)])) % 2 ^ 32 = tail.wrappedEnd.toNat := by
      rw [tail.wrapped_end_mod tailSized, values_append]
      simp [highest]
    have begins : lowest (values ((headPointer, head) :: back)) = head.address.toNat := rfl
    rw [ends, begins]
    simp [intelHexFileMerge, UInt32.lt_iff_toNat_lt, arranged1.ended, arranged2.ended, mode,
      present, atHead, atTail, heap.read_stored pointer _ tailFound,
      heap.read_stored headPointer _ headFound]

/-- An ascending list lies between its first address and its end. Empty blocks at either end do
not matter. -/
theorem ascending_bounds (blocks : List Block) (ascending : Ascending (segments blocks))
    (block : Block) (member : block ∈ blocks) :
    lowest blocks ≤ block.segment.start ∧ block.segment.stop ≤ highest blocks := by
  constructor
  · cases blocks with
    | nil => simp at member
    | cons head rest =>
      rw [lowest_cons]
      rcases List.mem_cons.mp member with rfl | later
      · exact Nat.le_refl _
      · have behind :=
          (List.pairwise_cons.mp ascending).1 block.segment (List.mem_map.mpr ⟨block, later, rfl⟩)
        exact head.segment.start_le_stop.trans behind
  · rcases List.eq_nil_or_concat' blocks with rfl | ⟨front, tail, rfl⟩
    · simp at member
    · rw [highest_concat]
      rcases List.mem_append.mp member with early | last
      · rw [segments_append, segments_cons, ascending_split] at ascending
        have before := ascending.2.1 block.segment (List.mem_map.mpr ⟨block, early, rfl⟩)
        exact before.trans tail.segment.start_le_stop
      · rw [List.mem_singleton.mp last]

/-- Two nonempty ascending lists are ascending in a row exactly when the first ends where
the second starts at the latest. -/
theorem ascending_row (left right : List Block) (someLeft : left ≠ []) (someRight : right ≠ [])
    (leftAscending : Ascending (segments left)) (rightAscending : Ascending (segments right)) :
    Ascending (segments (left ++ right)) ↔ highest left ≤ lowest right := by
  obtain ⟨front, tail, rfl⟩ := (List.eq_nil_or_concat' left).resolve_left someLeft
  cases right with
  | nil => exact absurd rfl someRight
  | cons head rest =>
    rw [highest_concat, lowest_cons]
    have joined := ascending_join (segments front) (segments rest) tail.segment head.segment
    simp only [segments_append, segments_cons, segments_nil]
      at leftAscending rightAscending joined ⊢
    rw [joined]
    exact ⟨fun whole => whole.2.2, fun touching => ⟨leftAscending, rightAscending, touching⟩⟩

/-- The first address of a nonempty list that stays within the space is below 2^32. An address is
a word. -/
theorem lowest_bound (blocks : List Block) : lowest blocks < 2 ^ 32 := by
  cases blocks with
  | nil => simp [lowest]
  | cons head rest => exact head.address.toNat_lt

/-- What a merge has to do: the first structure holds the union of both address maps in
an ascending list with its tail pointer at the last node, the totals add up, and no
node is reached from both structures. -/
def MergedAll (blocks1 blocks2 : List Block) (changed : Heap Block)
    (merged rest : IntelHexFormat) : Prop :=
  ∃ nodes others, Owns changed merged nodes ∧ Ascending (segments (values nodes)) ∧
    IsUnion (image (segments blocks1)) (image (segments blocks2))
      (image (segments (values nodes))) ∧
    merged.totalLength.toNat = ihf1.totalLength.toNat + ihf2.totalLength.toNat ∧
    Chain changed rest.blockHead others none ∧ Separate nodes others

/-- When the merge keeps everything. Blocks of the second file are lost if the first one
has none; otherwise the file with the lower machine end must really end below 2^32 and
the totals must fit the field. -/
def MergeSafe (blocks1 blocks2 : List Block) : Prop :=
  blocks2 = [] ∨ (blocks1 = [] ∧ ∀ block ∈ blocks2, block.data = []) ∨
    (blocks1 ≠ [] ∧ blocks2 ≠ [] ∧ ihf1.totalLength.toNat + ihf2.totalLength.toNat < 2 ^ 32 ∧
      (highest blocks2 % 2 ^ 32 < lowest blocks1 → highest blocks2 < 2 ^ 32) ∧
      (lowest blocks1 ≤ highest blocks2 % 2 ^ 32 → highest blocks1 < 2 ^ 32))

/-- Both orders of the two files ask for the same. The union of two images does not depend on
their order. -/
theorem merged_all_symm (blocks1 blocks2 : List Block) (changed : Heap Block)
    (merged rest : IntelHexFormat) :
    MergedAll ihf1 ihf2 blocks1 blocks2 changed merged rest ↔
      MergedAll ihf2 ihf1 blocks2 blocks1 changed merged rest := by
  constructor
  · rintro ⟨nodes, others, owns, ascending, union, total, chain, separate⟩
    exact ⟨nodes, others, owns, ascending, union.symm, total.trans (Nat.add_comm _ _), chain,
      separate⟩
  · rintro ⟨nodes, others, owns, ascending, union, total, chain, separate⟩
    exact ⟨nodes, others, owns, ascending, union.symm, total.trans (Nat.add_comm _ _), chain,
      separate⟩

/-- A joined list is a union exactly when the first list ends where the second starts at
the latest and the totals fit. -/
theorem spliced_merged (complete1 : Complete heap ihf1 nodes1)
    (complete2 : Complete heap ihf2 nodes2) (some1 : nodes1 ≠ []) (some2 : nodes2 ≠ [])
    (changed : Heap Block) (merged rest : IntelHexFormat)
    (spliced : Spliced ihf1 ihf2 changed merged rest (nodes1 ++ nodes2)) :
    MergedAll ihf1 ihf2 (values nodes1) (values nodes2) changed merged rest ↔
      ihf1.totalLength.toNat + ihf2.totalLength.toNat < 2 ^ 32 ∧
        highest (values nodes1) ≤ lowest (values nodes2) := by
  have row := ascending_row (values nodes1) (values nodes2) (by simpa [values] using some1)
    (by simpa [values] using some2) complete1.ascending complete2.ascending
  have sum : merged.totalLength.toNat =
      (ihf1.totalLength.toNat + ihf2.totalLength.toNat) % 2 ^ 32 := by
    rw [spliced.total, UInt32.toNat_add]
  rw [← row]
  constructor
  · rintro ⟨nodes, others, owns, ascending, _, total, _⟩
    have same := owns_unique changed merged nodes _ owns spliced.owns
    rw [same, values_append] at ascending
    have bound := merged.totalLength.toNat_lt
    exact ⟨by omega, ascending⟩
  · rintro ⟨total, ascending⟩
    refine ⟨nodes1 ++ nodes2, [], spliced.owns, by rwa [values_append], ?_, ?_, spliced.emptied, ?_⟩
    · rw [values_append, segments_append]
      rw [segments_append] at ascending
      exact union_append _ _ ascending
    · rw [sum, Nat.mod_eq_of_lt total]
    · intro pointer _ member
      simp at member

/-- A list without bytes maps nothing, and maps nothing only then. Blocks may still be in it. -/
theorem image_nothing (blocks : List Block) :
    (∀ position, image (segments blocks) position = none) ↔ ∀ block ∈ blocks, block.data = [] := by
  constructor
  · intro silent block member
    by_contra bytes
    have positive : 0 < block.data.length := List.length_pos_iff.mpr bytes
    rcases (image_none_iff _ _).mp (silent block.segment.start) block.segment
      (List.mem_map.mpr ⟨block, member, rfl⟩) with before | behind
    · omega
    · simp only [Segment.stop, Block.segment_items] at behind
      omega
  · intro empty position
    apply (image_none_iff _ _).mpr
    intro segment member
    obtain ⟨block, belongs, rfl⟩ := List.mem_map.mp member
    simp only [Segment.stop, Block.segment_items, empty block belongs, List.length_nil]
    omega

/-- With a file without blocks nothing is done, whichever of the two it is. The call returns
`TRUE` all the same. -/
theorem merge_nothing (arranged1 : Arranged heap ihf1 nodes1)
    (arranged2 : Arranged heap ihf2 nodes2) (mode : ihf1.fileMode = ihf2.fileMode)
    (empty : nodes1 = [] ∨ nodes2 = []) :
    intelHexFileMerge heap ihf1 ihf2 = .ok (true, heap, ihf1, ihf2) := by
  have head1 := chain_first heap _ _ arranged1.owns.chain
  have head2 := chain_first heap _ _ arranged2.owns.chain
  by_cases second : ihf2.blockHead = none
  · simp [intelHexFileMerge, arranged1.ended, arranged2.ended, mode, second]
  · have first : ihf1.blockHead = none := by
      rcases empty with rfl | rfl
      · exact head1
      · exact absurd head2 second
    simp [intelHexFileMerge, arranged1.ended, arranged2.ended, mode, second, first]

/-- A second file without blocks adds nothing. The first file is the merged one as it stands. -/
theorem nothing_merged (complete1 : Complete heap ihf1 nodes1) (complete2 : Complete heap ihf2 []) :
    MergedAll ihf1 ihf2 (values nodes1) [] heap ihf1 ihf2 := by
  have nothing : ihf2.totalLength.toNat = 0 := complete2.total
  refine ⟨nodes1, [], complete1.owns, complete1.ascending, ?_, ?_, complete2.owns.chain, ?_⟩
  · intro position byte
    simp
  · omega
  · intro pointer _ member
    simp at member

/-- A first file without blocks loses the bytes of the second. Only the local pointer is set, and
the caller's structure stays empty. -/
theorem merged_into_nothing (complete1 : Complete heap ihf1 [])
    (complete2 : Complete heap ihf2 nodes2) (separate : Separate [] nodes2) :
    MergedAll ihf1 ihf2 [] (values nodes2) heap ihf1 ihf2 ↔
      ∀ block ∈ values nodes2, block.data = [] := by
  constructor
  · rintro ⟨nodes, others, owns, _, union, _⟩
    obtain rfl := owns_unique heap ihf1 nodes [] owns complete1.owns
    refine (image_nothing _).mp fun position => ?_
    by_contra mapped
    obtain ⟨byte, found⟩ := Option.ne_none_iff_exists'.mp mapped
    have lost := (union position byte).mpr (Or.inr found)
    simp at lost
  · intro empty
    refine ⟨[], nodes2, complete1.owns, complete1.ascending, ?_, ?_, complete2.owns.chain,
      separate⟩
    · intro position byte
      simp [(image_nothing _).mpr empty position]
    · have first : ihf1.totalLength.toNat = 0 := complete1.total
      have second := complete2.total
      have zero : ((values nodes2).map fun block => block.data.length).sum = 0 := by
        rw [List.sum_eq_zero_iff]
        intro size member
        obtain ⟨block, belongs, rfl⟩ := List.mem_map.mp member
        rw [empty block belongs, List.length_nil]
      omega

/-- A merge that returned `TRUE` made the first structure the union of both files exactly when it
was safe. Proof: by which of the two lists comes first, with empty ones apart. -/
theorem merge_union (changed : Heap Block) (merged rest : IntelHexFormat)
    (complete1 : Complete heap ihf1 nodes1) (complete2 : Complete heap ihf2 nodes2)
    (separate : Separate nodes1 nodes2) (mode : ihf1.fileMode = ihf2.fileMode)
    (returned : intelHexFileMerge heap ihf1 ihf2 = .ok (true, changed, merged, rest)) :
    MergedAll ihf1 ihf2 (values nodes1) (values nodes2) changed merged rest ↔
      MergeSafe ihf1 ihf2 (values nodes1) (values nodes2) := by
  by_cases some2 : nodes2 = []
  · subst some2
    rw [merge_nothing heap ihf1 ihf2 nodes1 [] complete1.toArranged complete2.toArranged mode
      (Or.inr rfl)] at returned
    obtain ⟨-, rfl, rfl, rfl⟩ : true = true ∧ heap = changed ∧ ihf1 = merged ∧ ihf2 = rest := by
      simpa only [Except.ok.injEq, Prod.mk.injEq] using returned
    exact iff_of_true (nothing_merged heap ihf1 ihf2 nodes1 complete1 complete2) (Or.inl rfl)
  have value2 : values nodes2 ≠ [] := by simpa [values] using some2
  by_cases some1 : nodes1 = []
  · subst some1
    rw [merge_nothing heap ihf1 ihf2 [] nodes2 complete1.toArranged complete2.toArranged mode
      (Or.inl rfl)] at returned
    obtain ⟨-, rfl, rfl, rfl⟩ : true = true ∧ heap = changed ∧ ihf1 = merged ∧ ihf2 = rest := by
      simpa only [Except.ok.injEq, Prod.mk.injEq] using returned
    rw [values_nil, merged_into_nothing heap ihf1 ihf2 nodes2 complete1 complete2 separate]
    simp [MergeSafe, value2]
  have value1 : values nodes1 ≠ [] := by simpa [values] using some1
  have low1 := lowest_bound (values nodes1)
  have low2 := lowest_bound (values nodes2)
  rw [merge_order heap ihf1 ihf2 nodes1 nodes2 complete1.toArranged complete2.toArranged mode some1
    some2] at returned
  by_cases exchanged : highest (values nodes2) % 2 ^ 32 < lowest (values nodes1)
  · rw [if_pos exchanged] at returned
    obtain ⟨others, joined, leftover, result, spliced⟩ := (splice_spec heap ihf2 ihf1 nodes2 nodes1
      complete2.owns complete1.owns separate.symm some2 some1).2 (Nat.le_of_lt exchanged)
    rw [result] at returned
    obtain ⟨-, rfl, rfl, rfl⟩ :
        true = true ∧ others = changed ∧ joined = merged ∧ leftover = rest := by
      simpa only [Except.ok.injEq, Prod.mk.injEq] using returned
    rw [merged_all_symm,
      spliced_merged heap ihf2 ihf1 nodes2 nodes1 complete2 complete1 some2 some1 _ _ _ spliced]
    simp only [MergeSafe, value1, value2, false_and, false_or, ne_eq, not_false_eq_true, true_and]
    omega
  · rw [if_neg exchanged] at returned
    have order := splice_spec heap ihf1 ihf2 nodes1 nodes2 complete1.owns complete2.owns separate
      some1 some2
    by_cases clear : highest (values nodes1) % 2 ^ 32 ≤ lowest (values nodes2)
    · obtain ⟨others, joined, leftover, result, spliced⟩ := order.2 clear
      rw [result] at returned
      obtain ⟨-, rfl, rfl, rfl⟩ :
          true = true ∧ others = changed ∧ joined = merged ∧ leftover = rest := by
        simpa only [Except.ok.injEq, Prod.mk.injEq] using returned
      rw [spliced_merged heap ihf1 ihf2 nodes1 nodes2 complete1 complete2 some1 some2 _ _ _ spliced]
      simp only [MergeSafe, value1, value2, false_and, false_or, ne_eq, not_false_eq_true, true_and]
      omega
    · rw [order.1 (by omega)] at returned
      simp at returned

/-! ## Both argument orders -/

/-- The joined list of two nonempty files, if the merge returns `TRUE`. It is decided by the
wrapped ends, as in the code. -/
def joinedNodes (nodes1 nodes2 : List BlockNode) : Option (List BlockNode) :=
  if highest (values nodes2) % 2 ^ 32 < lowest (values nodes1) then some (nodes2 ++ nodes1)
  else if highest (values nodes1) % 2 ^ 32 ≤ lowest (values nodes2) then some (nodes1 ++ nodes2)
  else none

/-- A merge of nonempty files returns `TRUE` exactly with the joined list. This turns a merge into
a fact about lists of blocks. -/
theorem merge_joined (arranged1 : Arranged heap ihf1 nodes1) (arranged2 : Arranged heap ihf2 nodes2)
    (separate : Separate nodes1 nodes2) (mode : ihf1.fileMode = ihf2.fileMode)
    (some1 : nodes1 ≠ []) (some2 : nodes2 ≠ []) (blocks : List Block) :
    (∃ changed merged rest, intelHexFileMerge heap ihf1 ihf2 = .ok (true, changed, merged, rest) ∧
      Holds changed merged blocks) ↔
      (joinedNodes nodes1 nodes2).map values = some blocks := by
  rw [merge_order heap ihf1 ihf2 nodes1 nodes2 arranged1 arranged2 mode some1 some2, joinedNodes]
  have returning : ∀ (changed : Heap Block) (merged rest : IntelHexFormat) (nodes : List BlockNode),
      Owns changed merged nodes →
      ((∃ others joined leftover, (Except.ok (true, changed, merged, rest) : Run _) =
          .ok (true, others, joined, leftover) ∧ Holds others joined blocks) ↔
        (some nodes).map values = some blocks) := by
    intro changed merged rest nodes owns
    constructor
    · rintro ⟨others, joined, leftover, same, held, heldOwns, rfl⟩
      obtain ⟨-, rfl, rfl, rfl⟩ :
          true = true ∧ changed = others ∧ merged = joined ∧ rest = leftover := by
        simpa only [Except.ok.injEq, Prod.mk.injEq] using same
      rw [owns_unique changed merged nodes held owns heldOwns]
      rfl
    · intro same
      exact ⟨changed, merged, rest, rfl, nodes, owns, Option.some.inj same⟩
  by_cases exchanged : highest (values nodes2) % 2 ^ 32 < lowest (values nodes1)
  · obtain ⟨changed, merged, rest, result, spliced⟩ := (splice_spec heap ihf2 ihf1 nodes2 nodes1
      arranged2.owns arranged1.owns separate.symm some2 some1).2 (Nat.le_of_lt exchanged)
    rw [if_pos exchanged, if_pos exchanged, result]
    exact returning changed merged rest _ spliced.owns
  · have order := splice_spec heap ihf1 ihf2 nodes1 nodes2 arranged1.owns arranged2.owns separate
      some1 some2
    rw [if_neg exchanged, if_neg exchanged]
    by_cases clear : highest (values nodes1) % 2 ^ 32 ≤ lowest (values nodes2)
    · obtain ⟨changed, merged, rest, result, spliced⟩ := order.2 clear
      rw [if_pos clear, result]
      exact returning changed merged rest _ spliced.owns
    · rw [if_neg clear, order.1 (by omega)]
      simp

/-- Both argument orders return `TRUE` and leave the same ascending list in their first argument.
Whether this can happen is a question about the lists alone. -/
def MergesAlike : Prop :=
  ∃ blocks, Ascending (segments blocks) ∧
    (∃ changed merged rest, intelHexFileMerge heap ihf1 ihf2 = .ok (true, changed, merged, rest) ∧
      Holds changed merged blocks) ∧
    ∃ changed merged rest, intelHexFileMerge heap ihf2 ihf1 = .ok (true, changed, merged, rest) ∧
      Holds changed merged blocks

/-- The spans leave a gap, and the higher one does not end at 2^32 unless the lower one
begins at 0. Two copies of one empty span are the only touching ones. -/
def SpansClear (blocks1 blocks2 : List Block) : Prop :=
  (highest blocks1 < lowest blocks2 ∧ (highest blocks2 < 2 ^ 32 ∨ lowest blocks1 = 0)) ∨
    (highest blocks2 < lowest blocks1 ∧ (highest blocks1 < 2 ^ 32 ∨ lowest blocks2 = 0)) ∨
    (lowest blocks1 = highest blocks2 ∧ lowest blocks2 = highest blocks1)

/-- The blocks of an empty span are all the same. They all lie at one address and hold nothing. -/
theorem empty_span (blocks : List Block) (sized : ∀ block ∈ blocks, block.Sized)
    (ascending : Ascending (segments blocks)) (empty : lowest blocks = highest blocks) :
    blocks = List.replicate blocks.length ⟨UInt32.ofNat (lowest blocks), 0, []⟩ := by
  apply List.eq_replicate_of_mem
  intro block member
  obtain ⟨begins, ends⟩ := ascending_bounds blocks ascending block member
  have spans := block.segment.start_le_stop
  have size := sized block member
  rw [block.segment_stop size] at ends spans
  rw [Block.segment_start] at begins spans
  have address : block.address = UInt32.ofNat (lowest blocks) := by
    rw [show lowest blocks = block.address.toNat by omega, UInt32.ofNat_toNat]
  have length : block.length = 0 := by
    rw [← UInt32.toNat_inj]
    exact show block.length.toNat = 0 by omega
  have data : block.data = [] := by
    rw [← List.length_eq_zero_iff, size, length]
    rfl
  rw [← address, ← length, ← data]

/-- A nonempty arranged file spans addresses up to 2^32. The end of the last block may be the top
of the space. -/
theorem arranged_span (file : IntelHexFormat) (nodes : List BlockNode) (present : nodes ≠ [])
    (arranged : Arranged heap file nodes) :
    lowest (values nodes) ≤ highest (values nodes) ∧ highest (values nodes) ≤ 2 ^ 32 := by
  obtain ⟨front, tail, split⟩ := (List.eq_nil_or_concat' (values nodes)).resolve_left
    (by simpa [values] using present)
  have bounds := ascending_bounds _ arranged.ascending tail (by simp [split])
  have within := arranged.within tail (by simp [split])
  have ends : highest (values nodes) = tail.segment.stop := by rw [split, highest_concat]
  have grows := tail.segment.start_le_stop
  omega

/-- The two orders agree on ascending lists only when all blocks are one empty span. Proof: lists
that may be exchanged are in order both ways round, which leaves no room between their ends. -/
theorem joined_alike (arranged1 : Arranged heap ihf1 nodes1) (arranged2 : Arranged heap ihf2 nodes2)
    (some1 : nodes1 ≠ []) (some2 : nodes2 ≠ []) :
    (Ascending (segments (values nodes1 ++ values nodes2)) ∧
      values nodes2 ++ values nodes1 = values nodes1 ++ values nodes2) ↔
      highest (values nodes1) ≤ lowest (values nodes2) ∧
        highest (values nodes2) ≤ lowest (values nodes1) := by
  have value1 : values nodes1 ≠ [] := by simpa [values] using some1
  have value2 : values nodes2 ≠ [] := by simpa [values] using some2
  have row := ascending_row _ _ value1 value2 arranged1.ascending arranged2.ascending
  have reverse := ascending_row _ _ value2 value1 arranged2.ascending arranged1.ascending
  have span1 := arranged_span heap ihf1 nodes1 some1 arranged1
  have span2 := arranged_span heap ihf2 nodes2 some2 arranged2
  constructor
  · rintro ⟨ascending, agree⟩
    exact ⟨row.mp ascending, reverse.mp (agree ▸ ascending)⟩
  · rintro ⟨first, second⟩
    refine ⟨row.mpr first, ?_⟩
    rw [empty_span _ arranged1.owns.sized arranged1.ascending (by omega),
      empty_span _ arranged2.owns.sized arranged2.ascending (by omega),
      show lowest (values nodes2) = lowest (values nodes1) by omega,
      List.replicate_append_replicate, List.replicate_append_replicate, Nat.add_comm]

/-- Two nonempty files merge alike in both orders exactly when their spans are clear of each
other. Touching spans are not clear of each other in this sense, since one of the orders takes
them for an overlap. Proof: the joined lists of both orders are the same only if they are in
order, and both overlap tests have to pass. -/
theorem merge_alike (arranged1 : Arranged heap ihf1 nodes1) (arranged2 : Arranged heap ihf2 nodes2)
    (separate : Separate nodes1 nodes2) (mode : ihf1.fileMode = ihf2.fileMode)
    (some1 : nodes1 ≠ []) (some2 : nodes2 ≠ []) :
    MergesAlike heap ihf1 ihf2 ↔ SpansClear (values nodes1) (values nodes2) := by
  have value1 : values nodes1 ≠ [] := by simpa [values] using some1
  have value2 : values nodes2 ≠ [] := by simpa [values] using some2
  have row := ascending_row _ _ value1 value2 arranged1.ascending arranged2.ascending
  have reverse := ascending_row _ _ value2 value1 arranged2.ascending arranged1.ascending
  have below1 := lowest_bound (values nodes1)
  have below2 := lowest_bound (values nodes2)
  have span1 := arranged_span heap ihf1 nodes1 some1 arranged1
  have span2 := arranged_span heap ihf2 nodes2 some2 arranged2
  have firstRow := joined_alike heap ihf1 ihf2 nodes1 nodes2 arranged1 arranged2 some1 some2
  have secondRow := joined_alike heap ihf2 ihf1 nodes2 nodes1 arranged2 arranged1 some2 some1
  simp only [MergesAlike,
    merge_joined heap ihf1 ihf2 nodes1 nodes2 arranged1 arranged2 separate mode some1 some2,
    merge_joined heap ihf2 ihf1 nodes2 nodes1 arranged2 arranged1 separate.symm mode.symm some2
      some1,
    joinedNodes]
  split_ifs
  all_goals simp only [Option.map_some, Option.map_none, Option.some.injEq, values_append,
    reduceCtorEq,
    false_and, and_false, exists_false, exists_eq_right', ← and_assoc, and_true, SpansClear,
      false_iff]
  · -- Both calls exchange their arguments.
    rw [firstRow]
    omega
  · rw [reverse]
    omega
  · omega
  · rw [row]
    omega
  · -- Neither call exchanges them.
    rw [secondRow]
    omega
  all_goals omega

/-! ## A refused merge -/

/-- A list whose tail pointer names its last node. Its blocks may lie anywhere. This is less than
`Owns`, because no block needs to have its length. -/
structure Linked (hexFile : IntelHexFormat) (nodes : List BlockNode) : Prop where
  chain : Chain heap hexFile.blockHead nodes none
  tail : hexFile.blockTail = nodes.getLast?.map Prod.fst

/-- The two ends of a nonempty list are stored nodes. The reads of the merge do not fault on
them. -/
theorem linked_ends (hexFile : IntelHexFormat) (nodes : List BlockNode)
    (linked : Linked heap hexFile nodes) (present : hexFile.blockHead ≠ none) :
    ∃ head pointer tail, heap.read hexFile.blockHead = .ok head ∧
      hexFile.blockTail = some pointer ∧ heap.stored pointer = some tail := by
  have first := chain_first heap _ _ linked.chain
  rcases List.eq_nil_or_concat' nodes with rfl | ⟨front, ⟨pointer, last⟩, rfl⟩
  · exact absurd first present
  · have atTail : hexFile.blockTail = some pointer := by simpa using linked.tail
    obtain ⟨next, tailFound⟩ :=
      chain_stored heap _ _ _ linked.chain pointer last (by simp)
    obtain ⟨headPointer, atHead⟩ := Option.ne_none_iff_exists'.mp present
    rw [atHead] at first ⊢
    obtain ⟨⟨visited, block⟩, firstNode, same⟩ := Option.map_eq_some_iff.mp first.symm
    obtain ⟨after, headFound⟩ :=
      chain_stored heap _ _ _ linked.chain visited block (List.mem_of_head? firstNode)
    rw [← show visited = headPointer from same]
    exact ⟨_, pointer, _, heap.read_stored visited _ headFound, atTail, tailFound⟩

/-- Joining returns `FALSE` only on its overlap test, and then leaves everything alone. Nothing is
changed in front of the test. -/
theorem splice_refuses (head tail : Node Block) (pointer : Nat)
    (atTail : ihf1.blockTail = some pointer) (tailFound : heap.stored pointer = some tail)
    (headRead : heap.read ihf2.blockHead = .ok head) :
    ∃ accepted changed merged rest,
      splice heap ihf1 ihf2 = .ok (accepted, changed, merged, rest) ∧
      (accepted = false → head.value.address < tail.value.wrappedEnd ∧
        changed = heap ∧ merged = ihf1 ∧ rest = ihf2) := by
  have tailRead : heap.read ihf1.blockTail = .ok tail := by
    rw [atTail, heap.read_stored pointer _ tailFound]
  by_cases overlapped : tail.value.wrappedEnd > head.value.address
  · refine ⟨false, heap, ihf1, ihf2, ?_, fun _ => ⟨overlapped, rfl, rfl, rfl⟩⟩
    simp [splice, tailRead, headRead, overlapped]
  · have written := heap.write_stored pointer tail { tail with next := ihf2.blockHead } tailFound
    rw [← atTail] at written
    obtain ⟨changed, merged, rest, returned⟩ : ∃ changed merged rest,
        splice heap ihf1 ihf2 = .ok (true, changed, merged, rest) := by
      simp only [splice, tailRead, headRead, ok_bind, if_neg overlapped, written]
      exact ⟨_, _, _, rfl⟩
    exact ⟨true, changed, merged, rest, returned, by simp⟩

/-- A merge returns, and one that returns `FALSE` has changed neither structure nor any
node. The structures have changed places only if the first one starts above the end of
the second, and then the overlap test behind the exchange cannot fail. -/
theorem merge_atomic (linked1 : Linked heap ihf1 nodes1) (linked2 : Linked heap ihf2 nodes2) :
    ∃ accepted changed merged rest,
      intelHexFileMerge heap ihf1 ihf2 = .ok (accepted, changed, merged, rest) ∧
      (accepted = false → changed = heap ∧ merged = ihf1 ∧ rest = ihf2) := by
  unfold intelHexFileMerge
  split_ifs with ended mode second first
  · exact ⟨false, heap, ihf1, ihf2, rfl, fun _ => ⟨rfl, rfl, rfl⟩⟩
  · exact ⟨false, heap, ihf1, ihf2, rfl, fun _ => ⟨rfl, rfl, rfl⟩⟩
  · exact ⟨true, heap, ihf1, ihf2, rfl, by simp⟩
  · exact ⟨true, heap, ihf1, ihf2, rfl, by simp⟩
  · obtain ⟨head1, pointer1, tail1, headRead1, atTail1, tailFound1⟩ :=
      linked_ends heap ihf1 nodes1 linked1 first
    obtain ⟨head2, pointer2, tail2, headRead2, atTail2, tailFound2⟩ :=
      linked_ends heap ihf2 nodes2 linked2 second
    have tailRead2 : heap.read ihf2.blockTail = .ok tail2 := by
      rw [atTail2, heap.read_stored pointer2 _ tailFound2]
    rw [headRead1, tailRead2, ok_bind, ok_bind]
    split_ifs with exchanged
    · obtain ⟨accepted, changed, merged, rest, result, refused⟩ :=
        splice_refuses heap ihf2 ihf1 head1 tail2 pointer2 atTail2 tailFound2 headRead1
      refine ⟨accepted, changed, merged, rest, result, fun failed => ?_⟩
      exact absurd (refused failed).1 (UInt32.lt_asymm exchanged)
    · obtain ⟨accepted, changed, merged, rest, result, refused⟩ :=
        splice_refuses heap ihf1 ihf2 head2 tail1 pointer1 atTail1 tailFound1 headRead2
      exact ⟨accepted, changed, merged, rest, result, fun failed => (refused failed).2⟩

end Merge

/-! ## Files of one block -/

/-- A loaded file without data. Its end of file was seen. -/
def emptyFile : IntelHexFormat := { IntelHexFormat.fresh with endOfFile := true }

/-- A structure with a single block inside the address space meets the invariant. It is how the
examples are built. -/
theorem one_block_complete (heap : Heap Block) (pointer : Nat) (block : Block)
    (found : heap.stored pointer = some ⟨block, none⟩) (sized : block.Sized)
    (within : block.segment.stop ≤ 2 ^ 32) :
    Complete heap (oneBlockFile pointer block) [(pointer, block)] :=
  ⟨⟨one_block_owns heap pointer block found sized, by simp [Ascending], by simpa using within,
    rfl⟩, sized.symm⟩

/-- The structure without blocks meets the invariant. It has no node. -/
theorem empty_complete (heap : Heap Block) : Complete heap emptyFile [] :=
  ⟨⟨owns_nothing heap _ rfl rfl, List.Pairwise.nil, by simp, rfl⟩, rfl⟩

/-- A block of two bytes at address 0. It ends at address 2. -/
def lowBlock : Block := ⟨0, 2, [1, 2]⟩

/-- A block of one byte at address 16. It ends at address 17. -/
def highBlock : Block := ⟨16, 1, [3]⟩

/-- A heap with the blocks of two structures, one block each, at addresses 0 and 1. The first
pointer is to the lower block. -/
def twoFiles (low high : Block) : Heap Block :=
  ⟨[some ⟨low, none⟩, some ⟨high, none⟩], fun _ => true⟩

/-- The higher file merged with the lower one as second argument. The structures change places. -/
theorem higher_first_union :
    ∃ changed merged rest,
      intelHexFileMerge (twoFiles lowBlock highBlock) (oneBlockFile 1 highBlock)
        (oneBlockFile 0 lowBlock) = .ok (true, changed, merged, rest) ∧
      MergedAll (oneBlockFile 1 highBlock) (oneBlockFile 0 lowBlock) [highBlock] [lowBlock] changed
        merged rest := by
  refine ⟨_, _, _, rfl, (merge_union (twoFiles lowBlock highBlock) (oneBlockFile 1 highBlock)
    (oneBlockFile 0 lowBlock) [(1, highBlock)] [(0, lowBlock)] _ _ _
    (one_block_complete _ 1 highBlock rfl rfl (by decide))
    (one_block_complete _ 0 lowBlock rfl rfl (by decide)) ?_ rfl rfl).mpr ?_⟩
  · simp [Separate]
  · exact Or.inr (Or.inr ⟨by simp, by simp, by decide, by decide, by decide⟩)

/-- Merging a file into one without data returns `TRUE` and leaves the first structure empty. The
second structure keeps its list. -/
theorem empty_first_lost :
    Complete (twoFiles lowBlock highBlock) emptyFile [] ∧
    Complete (twoFiles lowBlock highBlock) (oneBlockFile 0 lowBlock) [(0, lowBlock)] ∧
    ∃ changed merged rest,
      intelHexFileMerge (twoFiles lowBlock highBlock) emptyFile (oneBlockFile 0 lowBlock) =
        .ok (true, changed, merged, rest) ∧
      ¬ MergedAll emptyFile (oneBlockFile 0 lowBlock) [] [lowBlock] changed merged rest := by
  refine ⟨empty_complete _, one_block_complete _ 0 lowBlock rfl rfl (by decide), _, _, _, rfl, ?_⟩
  rintro ⟨nodes, others, owns, _, union, _⟩
  obtain rfl := owns_unique _ _ nodes [] owns (owns_nothing _ _ rfl rfl)
  have lost := (union 0 1).mpr (Or.inr rfl)
  simp at lost

/-- Two files with a gap between them merge alike. Both orders give the lower one first. -/
theorem gap_alike :
    MergesAlike (twoFiles lowBlock highBlock) (oneBlockFile 0 lowBlock)
      (oneBlockFile 1 highBlock) :=
  (merge_alike (twoFiles lowBlock highBlock) (oneBlockFile 0 lowBlock) (oneBlockFile 1 highBlock)
    [(0, lowBlock)] [(1, highBlock)]
    (one_block_complete _ 0 lowBlock rfl rfl (by decide)).toArranged
    (one_block_complete _ 1 highBlock rfl rfl (by decide)).toArranged (by simp [Separate]) rfl
    (by simp) (by simp)).mpr (Or.inl ⟨by decide, by decide⟩)

/-- A block that starts where the low block ends. It is no overlap, but the test of one order
takes it for one. -/
def touchingBlock : Block := ⟨2, 1, [3]⟩

/-- Touching spans are joined in one argument order and refused in the other. The files are
exchanged only if there is a gap between them, and joined without one. -/
theorem touching_refused :
    highest [lowBlock] ≤ lowest [touchingBlock] ∧
    Complete (twoFiles lowBlock touchingBlock) (oneBlockFile 0 lowBlock) [(0, lowBlock)] ∧
    Complete (twoFiles lowBlock touchingBlock) (oneBlockFile 1 touchingBlock) [(1, touchingBlock)] ∧
    ¬ MergesAlike (twoFiles lowBlock touchingBlock) (oneBlockFile 0 lowBlock)
      (oneBlockFile 1 touchingBlock) := by
  refine ⟨by decide, one_block_complete _ 0 lowBlock rfl rfl (by decide),
    one_block_complete _ 1 touchingBlock rfl rfl (by decide), ?_⟩
  rintro ⟨blocks, _, _, changed, merged, rest, result, _⟩
  have refused : intelHexFileMerge (twoFiles lowBlock touchingBlock) (oneBlockFile 1 touchingBlock)
      (oneBlockFile 0 lowBlock) = .ok (false, twoFiles lowBlock touchingBlock,
        oneBlockFile 1 touchingBlock, oneBlockFile 0 lowBlock) := rfl
  rw [refused] at result
  simp at result

/-- A refused merge of two touching files is one of the atomic ones. Nothing has been relinked
when the tests are made. -/
theorem touching_atomic :
    ∃ accepted changed merged rest,
      intelHexFileMerge (twoFiles lowBlock touchingBlock) (oneBlockFile 1 touchingBlock)
        (oneBlockFile 0 lowBlock) = .ok (accepted, changed, merged, rest) ∧
      (accepted = false → changed = twoFiles lowBlock touchingBlock ∧
        merged = oneBlockFile 1 touchingBlock ∧ rest = oneBlockFile 0 lowBlock) :=
  merge_atomic (twoFiles lowBlock touchingBlock) (oneBlockFile 1 touchingBlock)
    (oneBlockFile 0 lowBlock) [(1, touchingBlock)] [(0, lowBlock)]
    ⟨⟨rfl, none, rfl, rfl⟩, rfl⟩ ⟨⟨rfl, none, rfl, rfl⟩, rfl⟩

end EffiLib.IntelHex
