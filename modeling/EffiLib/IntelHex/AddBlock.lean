import EffiLib.IntelHex.Format

/-!
# Adding a range of bytes to the block list

`addBlock` follows `AddBlock` pointer by pointer: the tail is tried first, then
the list is scanned for a block to append to or to insert behind. All address
sums wrap as in the source.
-/

namespace EffiLib.IntelHex

open Buffers LinkedHeap Segments

/-- Loop body of the scan for `append_block` and `add_block`. An exact end stops
the scan; a lower end moves the insertion point, past earlier candidates. -/
def scanBlock (address : u32) (found : Option Nat × Option Nat) (pointer : Nat) (block : Block) :
    Visit (Option Nat × Option Nat) :=
  if address = block.wrappedEnd then .stop (some pointer, found.2)
  else if block.wrappedEnd < address then .continue (found.1, some pointer)
  else .continue found

/-- The values of `append_block` and `add_block` before the list is changed. The tail is tried
before the list is scanned, so that ascending files load without a scan. -/
def findPosition (heap : Heap Block) (hexFile : IntelHexFormat) (address : u32) :
    Run (Option Nat × Option Nat) :=
  match hexFile.blockTail with
  | none => .ok (none, none)
  | some tail => do
    let node ← heap.read (some tail)
    if node.value.wrappedEnd = address then .ok (some tail, none)
    else if node.value.wrappedEnd ≤ address then .ok (none, some tail)
    else heap.walk (scanBlock address) heap.cells.length hexFile.blockHead (none, none)

/-- Extend an existing block. If `realloc` fails, the error path dereferences
`new_block`, which is still null on this route. -/
def appendToBlock (heap : Heap Block) (hexFile : IntelHexFormat) (appendBlock : Nat)
    (data : List u8) (dataLen : u32) : Run (Bool × Heap Block × IntelHexFormat) := do
  let node ← heap.read (some appendBlock)
  let block := node.value
  let (granted, heap) := heap.request
  if granted then
    let temp := resize block.data (block.length + dataLen).toNat 0
    let filled ← copy temp block.length.toNat data dataLen.toNat
    let heap ← heap.write (some appendBlock)
      ⟨{ block with data := filled, length := block.length + dataLen }, node.next⟩
    .ok (true, heap, hexFile)
  else .error .nullPointer

/-- The overlap test in front of an insertion. Only the block behind the chosen
position, or the head of the list, is compared. -/
def overlaps (heap : Heap Block) (hexFile : IntelHexFormat) (addAfter : Option Nat)
    (address dataLen : u32) : Run Bool :=
  match addAfter with
  | none =>
    match hexFile.blockHead with
    | none => .ok false
    | some head => do
      let node ← heap.read (some head)
      .ok (decide (node.value.address < address))
  | some position => do
    let node ← heap.read (some position)
    match node.next with
    | none => .ok false
    | some next => do
      let following ← heap.read (some next)
      .ok (decide (following.value.address < address + dataLen))

/-- Link a block that has already been filled into the list. An empty list, a new head and a place
behind some node are the three cases of the source. -/
def linkBlock (heap : Heap Block) (hexFile : IntelHexFormat) (addAfter : Option Nat)
    (block : Block) : Run (Heap Block × IntelHexFormat) :=
  match hexFile.blockHead, addAfter with
  | none, _ =>
    let (newBlock, heap) := heap.create ⟨block, none⟩
    .ok (heap, { hexFile with blockHead := some newBlock, blockTail := some newBlock })
  | some head, none =>
    let (newBlock, heap) := heap.create ⟨block, some head⟩
    .ok (heap, { hexFile with blockHead := some newBlock })
  | some _, some position => do
    let node ← heap.read (some position)
    let (newBlock, heap) := heap.create ⟨block, node.next⟩
    let heap ← heap.write (some position) { node with next := some newBlock }
    .ok (heap, hexFile)

/-- Move `BlockTail` forward while it has a successor. The source does this after every insertion,
whether or not the new node is last. -/
def advanceTail (heap : Heap Block) (hexFile : IntelHexFormat) : Run IntelHexFormat := do
  let tail ← heap.walk (fun _ pointer _ => .continue (some pointer)) heap.cells.length
    hexFile.blockTail hexFile.blockTail
  .ok { hexFile with blockTail := tail }

/-- Insert a new block behind `addAfter`, or in front of the list. When the block
itself cannot be allocated the error path dereferences null; when its data cannot
be allocated the block is released and nothing has changed. -/
def insertBlock (heap : Heap Block) (hexFile : IntelHexFormat) (addAfter : Option Nat)
    (address : u32) (data : List u8) (dataLen : u32) :
    Run (Bool × Heap Block × IntelHexFormat) := do
  let overlapped ← overlaps heap hexFile addAfter address dataLen
  if overlapped then .ok (false, heap, hexFile)
  else
    let (blockGranted, heap) := heap.request
    if blockGranted then
      let (dataGranted, heap) := heap.request
      if dataGranted then
        let filled ← copy (List.replicate dataLen.toNat 0) 0 data dataLen.toNat
        let (heap, hexFile) ← linkBlock heap hexFile addAfter ⟨address, dataLen, filled⟩
        let hexFile ← advanceTail heap hexFile
        .ok (true, heap, hexFile)
      else .ok (false, heap, hexFile)
    else .error .nullPointer

/-- `AddBlock`: store `dataLen` bytes of `data` at `address`. It returns whether the range was
stored, with the heap and the structure behind the call. -/
def addBlock (heap : Heap Block) (hexFile : IntelHexFormat) (address : u32) (data : List u8)
    (dataLen : u32) : Run (Bool × Heap Block × IntelHexFormat) := do
  let (appendBlock, addAfter) ← findPosition heap hexFile address
  match appendBlock with
  | some pointer => appendToBlock heap hexFile pointer data dataLen
  | none => insertBlock heap hexFile addAfter address data dataLen

/-! ## The abstract transition -/

/-- The block made from a whole range. Its length is the number of bytes, as the source copies
it. -/
def Block.fresh (address : u32) (bytes : List u8) : Block :=
  ⟨address, UInt32.ofNat bytes.length, bytes⟩

/-- A block with further bytes behind its own. The length field is a machine word and may wrap. -/
def Block.extend (block : Block) (bytes : List u8) : Block :=
  { block with data := block.data ++ bytes, length := block.length + UInt32.ofNat bytes.length }

/-- What one call does to the list of blocks: four ways to store the bytes and two
refusals. The premises are exactly the comparisons made on the way, in machine
arithmetic; nothing is assumed about the order of the blocks. -/
inductive Route (address : u32) (bytes : List u8) : List Block → Bool → List Block → Prop
  | first : Route address bytes [] true [.fresh address bytes]
  | appendTail (front : List Block) (tail : Block) (touching : tail.wrappedEnd = address) :
      Route address bytes (front ++ [tail]) true (front ++ [tail.extend bytes])
  | afterTail (front : List Block) (tail : Block) (behind : tail.wrappedEnd < address) :
      Route address bytes (front ++ [tail]) true (front ++ [tail, .fresh address bytes])
  | appendInner (front : List Block) (block : Block) (back : List Block) (tail : Block)
      (inner : address < tail.wrappedEnd)
      (earlier : ∀ other ∈ front, other.wrappedEnd ≠ address)
      (touching : block.wrappedEnd = address) :
      Route address bytes (front ++ block :: (back ++ [tail])) true
        (front ++ block.extend bytes :: (back ++ [tail]))
  | between (front : List Block) (early late : Block) (back : List Block)
      (untouched : ∀ other ∈ front, other.wrappedEnd ≠ address)
      (behind : early.wrappedEnd < address)
      (ahead : ∀ other ∈ late :: back, address < other.wrappedEnd)
      (clear : ¬ late.address < address + UInt32.ofNat bytes.length) :
      Route address bytes (front ++ early :: late :: back) true
        (front ++ early :: .fresh address bytes :: late :: back)
  | refuseNext (front : List Block) (early late : Block) (back : List Block)
      (untouched : ∀ other ∈ front, other.wrappedEnd ≠ address)
      (behind : early.wrappedEnd < address)
      (ahead : ∀ other ∈ late :: back, address < other.wrappedEnd)
      (overlapped : late.address < address + UInt32.ofNat bytes.length) :
      Route address bytes (front ++ early :: late :: back) false
        (front ++ early :: late :: back)
  | before (head : Block) (rest : List Block)
      (ahead : ∀ other ∈ head :: rest, address < other.wrappedEnd)
      (clear : ¬ head.address < address) :
      Route address bytes (head :: rest) true (.fresh address bytes :: head :: rest)
  | refuseHead (head : Block) (rest : List Block)
      (ahead : ∀ other ∈ head :: rest, address < other.wrappedEnd)
      (overlapped : head.address < address) :
      Route address bytes (head :: rest) false (head :: rest)

/-- Where the scan stops. Either it breaks at the first block that ends exactly at
the address, or no block does and the insertion point is the last block that ends
below it. The induction follows the scanned list. -/
theorem scan_outcome (address : u32) (nodes : List BlockNode) (start : Option Nat) :
    (∃ front pointer block back, nodes = front ++ (pointer, block) :: back ∧
      (∀ other ∈ values front, other.wrappedEnd ≠ address) ∧ block.wrappedEnd = address ∧
      (walkList (scanBlock address) nodes (none, start)).1 = some pointer) ∨
    (∃ front pointer block back, nodes = front ++ (pointer, block) :: back ∧
      (∀ other ∈ values front, other.wrappedEnd ≠ address) ∧ block.wrappedEnd < address ∧
      (∀ other ∈ values back, address < other.wrappedEnd) ∧
      walkList (scanBlock address) nodes (none, start) = (none, some pointer)) ∨
    ((∀ other ∈ values nodes, address < other.wrappedEnd) ∧
      walkList (scanBlock address) nodes (none, start) = (none, start)) := by
  induction nodes generalizing start with
  | nil => exact Or.inr (Or.inr ⟨by simp, rfl⟩)
  | cons node rest inductionHypothesis =>
    obtain ⟨pointer, block⟩ := node
    by_cases touching : address = block.wrappedEnd
    · refine Or.inl ⟨[], pointer, block, rest, rfl, by simp, touching.symm, ?_⟩
      simp [walkList, scanBlock, touching]
    · have different : block.wrappedEnd ≠ address := Ne.symm touching
      by_cases behind : block.wrappedEnd < address
      · have visited : walkList (scanBlock address) ((pointer, block) :: rest) (none, start) =
            walkList (scanBlock address) rest (none, some pointer) := by
          simp [walkList, scanBlock, touching, behind]
        rw [visited]
        rcases inductionHypothesis (some pointer) with
          ⟨front, other, found, back, rfl, untouched, exact, result⟩ |
          ⟨front, other, found, back, rfl, untouched, below, above, result⟩ | ⟨above, result⟩
        · refine Or.inl ⟨(pointer, block) :: front, other, found, back, rfl, ?_, exact, result⟩
          simpa using ⟨different, untouched⟩
        · refine Or.inr (Or.inl ⟨(pointer, block) :: front, other, found, back, rfl, ?_,
            below, above, result⟩)
          simpa using ⟨different, untouched⟩
        · exact Or.inr (Or.inl ⟨[], pointer, block, rest, rfl, by simp, behind, above, result⟩)
      · have ahead : address < block.wrappedEnd :=
          UInt32.lt_of_le_of_ne (UInt32.not_lt.mp behind) touching
        have visited : walkList (scanBlock address) ((pointer, block) :: rest) (none, start) =
            walkList (scanBlock address) rest (none, start) := by
          simp [walkList, scanBlock, touching, behind]
        rw [visited]
        rcases inductionHypothesis start with
          ⟨front, other, found, back, rfl, untouched, exact, result⟩ |
          ⟨front, other, found, back, rfl, untouched, below, above, result⟩ | ⟨above, result⟩
        · refine Or.inl ⟨(pointer, block) :: front, other, found, back, rfl, ?_, exact, result⟩
          simpa using ⟨different, untouched⟩
        · refine Or.inr (Or.inl ⟨(pointer, block) :: front, other, found, back, rfl, ?_,
            below, above, result⟩)
          simpa using ⟨different, untouched⟩
        · refine Or.inr (Or.inr ⟨?_, result⟩)
          simpa using ⟨ahead, above⟩

/-- The tail pointer of a nonempty list names its last node. Its `Next` pointer is null. -/
theorem tail_node (heap : Heap Block) (hexFile : IntelHexFormat) (front : List BlockNode)
    (pointer : Nat) (block : Block) (owns : Owns heap hexFile (front ++ [(pointer, block)])) :
    hexFile.blockTail = some pointer ∧ heap.stored pointer = some ⟨block, none⟩ := by
  obtain ⟨next, found, _, late, _, _⟩ := chain_split heap _ front [] pointer block owns.chain
  have null : next = none := late
  refine ⟨by simpa using owns.tail, ?_⟩
  rw [found, null]

/-- The position found for an address, with the comparisons that led to it. The
scan only runs when the tail ends above the address. -/
inductive Position (address : u32) : List BlockNode → Option Nat × Option Nat → Prop
  | empty : Position address [] (none, none)
  | tail (front : List BlockNode) (pointer : Nat) (block : Block)
      (touching : block.wrappedEnd = address) :
      Position address (front ++ [(pointer, block)]) (some pointer, none)
  | behind (front : List BlockNode) (pointer : Nat) (block : Block)
      (behind : block.wrappedEnd < address) :
      Position address (front ++ [(pointer, block)]) (none, some pointer)
  | inner (front : List BlockNode) (pointer : Nat) (block : Block) (back : List BlockNode)
      (last : BlockNode) (candidate : Option Nat) (inner : address < last.2.wrappedEnd)
      (earlier : ∀ other ∈ values front, other.wrappedEnd ≠ address)
      (touching : block.wrappedEnd = address) :
      Position address (front ++ (pointer, block) :: (back ++ [last])) (some pointer, candidate)
  | between (front : List BlockNode) (pointer : Nat) (block : Block) (late : BlockNode)
      (back : List BlockNode)
      (untouched : ∀ other ∈ values front, other.wrappedEnd ≠ address)
      (behind : block.wrappedEnd < address)
      (ahead : ∀ other ∈ values (late :: back), address < other.wrappedEnd) :
      Position address (front ++ (pointer, block) :: late :: back) (none, some pointer)
  | before (head : BlockNode) (rest : List BlockNode)
      (ahead : ∀ other ∈ values (head :: rest), address < other.wrappedEnd) :
      Position address (head :: rest) (none, none)

/-- Looking for a position never faults on an owned list. It ends within the fuel given and says
which case of the list the caller is in. Proof: the invariant of the scan is that no block met so
far touches or lies above the address. -/
theorem find_position (heap : Heap Block) (hexFile : IntelHexFormat) (nodes : List BlockNode)
    (address : u32) (owns : Owns heap hexFile nodes) :
    ∃ found, findPosition heap hexFile address = .ok found ∧ Position address nodes found := by
  rcases List.eq_nil_or_concat' nodes with rfl | ⟨front, ⟨pointer, block⟩, rfl⟩
  · have null : hexFile.blockTail = none := owns.tail
    exact ⟨(none, none), by simp [findPosition, null], .empty⟩
  · obtain ⟨atTail, found⟩ := tail_node heap hexFile front pointer block owns
    have read := heap.read_stored pointer _ found
    by_cases touching : block.wrappedEnd = address
    · exact ⟨(some pointer, none), by simp [findPosition, atTail, read, touching],
        .tail front pointer block touching⟩
    · by_cases below : block.wrappedEnd ≤ address
      · have behind : block.wrappedEnd < address := UInt32.lt_of_le_of_ne below touching
        exact ⟨(none, some pointer), by simp [findPosition, atTail, read, touching, below],
          .behind front pointer block behind⟩
      · have inner : address < block.wrappedEnd := UInt32.not_le.mp below
        have scanned : findPosition heap hexFile address =
            .ok (walkList (scanBlock address) (front ++ [(pointer, block)]) (none, none)) := by
          have walked := walk_chain heap (scanBlock address) heap.cells.length hexFile.blockHead _
            (none, none) owns.chain (chain_fuel heap _ _ owns.chain)
          simp [findPosition, atTail, read, touching, below, walked]
        refine ⟨_, scanned, ?_⟩
        rcases scan_outcome address (front ++ [(pointer, block)]) none with
          ⟨early, other, exact, back, split, untouched, same, result⟩ |
          ⟨early, other, lower, back, split, untouched, behind, ahead, result⟩ | ⟨ahead, result⟩
        · rcases List.eq_nil_or_concat' back with rfl | ⟨middle, last, rfl⟩
          · have sameNode : (pointer, block) = (other, exact) := by
              simpa using congrArg List.getLast? split
            obtain ⟨_, sameBlock⟩ := Prod.mk.inj sameNode
            exact absurd (sameBlock ▸ same) touching
          · have regrouped :
                front ++ [(pointer, block)] = (early ++ (other, exact) :: middle) ++ [last] := by
              simpa using split
            have sameNode : (pointer, block) = last :=
              List.singleton_inj.mp (List.append_inj' regrouped rfl).2
            have walked : walkList (scanBlock address) (front ++ [(pointer, block)]) (none, none) =
                (some other, (walkList (scanBlock address) (front ++ [(pointer, block)])
                  (none, none)).2) := Prod.ext result rfl
            rw [walked, split]
            exact .inner early other exact middle last _ (sameNode ▸ inner) untouched same
        · cases back with
          | nil =>
            have sameNode : (pointer, block) = (other, lower) := by
              simpa using congrArg List.getLast? split
            obtain ⟨_, sameBlock⟩ := Prod.mk.inj sameNode
            exact absurd (sameBlock ▸ behind) (UInt32.lt_asymm inner)
          | cons late rest =>
            rw [result, split]
            exact .between early other lower late rest untouched behind ahead
        · rw [result]
          cases whole : front ++ [(pointer, block)] with
          | nil => simp at whole
          | cons head rest => exact .before head rest (whole ▸ ahead)

/-! ## Specification of the operations -/

/-- Nodes outside the list keep their contents. Blocks of another structure in the same heap are
among them. -/
def Preserves (before after : Heap Block) (nodes : List BlockNode) : Prop :=
  ∀ pointer node, pointer ∉ nodes.map Prod.fst → before.stored pointer = some node →
    after.stored pointer = some node

/-- Only the two list pointers of the structure may differ. Neither the start addresses nor the
mode nor the base depend on a call. -/
def SameHeader (before after : IntelHexFormat) : Prop :=
  after = { before with blockHead := after.blockHead, blockTail := after.blockTail }

/-- The fields behind the list pointers are the old ones. It is read off field by field where a
caller needs one of them. -/
theorem same_header_fields (before after : IntelHexFormat) (same : SameHeader before after) :
    after.totalLength = before.totalLength ∧ after.addressBase = before.addressBase ∧
      after.fileMode = before.fileMode ∧ after.endOfFile = before.endOfFile ∧
      after.startLinearAddress = before.startLinearAddress := by
  rw [SameHeader] at same
  exact ⟨by rw [same], by rw [same], by rw [same], by rw [same], by rw [same]⟩

/-- The copied prefix has the requested length. The caller hands over at least so many bytes. -/
theorem taken_length (data : List u8) (dataLen : u32) (enough : dataLen.toNat ≤ data.length) :
    (data.take dataLen.toNat).length = dataLen.toNat := by
  simp [enough]

/-- The requested length is recovered from the copied prefix. The prefix is short enough for the
word. -/
theorem taken_word (data : List u8) (dataLen : u32) (enough : dataLen.toNat ≤ data.length) :
    UInt32.ofNat (data.take dataLen.toNat).length = dataLen := by
  rw [taken_length data dataLen enough, UInt32.ofNat_toNat]

/-- A fresh block records the length of its bytes. A length is a word, so longer bytes would not
be counted. -/
theorem fresh_sized (address : u32) (bytes : List u8) (fits : bytes.length < 2 ^ 32) :
    (Block.fresh address bytes).Sized := by
  simp only [Block.Sized, Block.fresh]
  exact (UInt32.toNat_ofNat_of_lt' fits).symm

/-- A call's new block has the length it was given. So every block that a call creates is
sized. -/
theorem taken_sized (address : u32) (data : List u8) (dataLen : u32)
    (enough : dataLen.toNat ≤ data.length) :
    (Block.fresh address (data.take dataLen.toNat)).Sized := by
  have bounded := dataLen.toNat_lt
  exact fresh_sized address _ (by rw [taken_length data dataLen enough]; exact bounded)

/-- An extension that fits the length field keeps it exact. Where the field wraps, it is not
kept. -/
theorem extend_sized (block : Block) (bytes : List u8) (sized : block.Sized)
    (room : block.length.toNat + bytes.length < 2 ^ 32) : (block.extend bytes).Sized := by
  have fits : bytes.length < 2 ^ 32 := by omega
  simp only [Block.Sized, Block.extend, List.length_append, UInt32.toNat_add]
  rw [UInt32.toNat_ofNat_of_lt' fits, Nat.mod_eq_of_lt room, sized]

/-- Appending rewrites one block in place. The other nodes stay as they are, and the structure
does not change at all. -/
theorem append_spec (heap : Heap Block) (hexFile : IntelHexFormat) (front back : List BlockNode)
    (pointer : Nat) (block : Block) (data : List u8) (dataLen : u32)
    (owns : Owns heap hexFile (front ++ (pointer, block) :: back)) (generous : heap.Generous)
    (enough : dataLen.toNat ≤ data.length)
    (room : block.length.toNat + dataLen.toNat < 2 ^ 32) :
    ∃ changed, appendToBlock heap hexFile pointer data dataLen = .ok (true, changed, hexFile) ∧
      Owns changed hexFile
        (front ++ (pointer, block.extend (data.take dataLen.toNat)) :: back) ∧
      changed.Generous ∧ Preserves heap changed (front ++ (pointer, block) :: back) := by
  obtain ⟨next, found, early, late, earlyFree, lateFree⟩ :=
    chain_split heap _ front back pointer block owns.chain
  have granted : heap.request.1 = true := (heap.request_generous generous).1
  have sized : block.Sized := owns.sized block (by simp)
  have size : (block.length + dataLen).toNat = block.data.length + dataLen.toNat := by
    rw [UInt32.toNat_add, Nat.mod_eq_of_lt room, sized]
  have copied : copy (resize block.data (block.length + dataLen).toNat 0) block.length.toNat data
      dataLen.toNat = .ok (block.data ++ data.take dataLen.toNat) := by
    rw [size, ← show block.data.length = block.length.toNat from sized]
    exact grow_copy block.data data dataLen.toNat 0 enough
  have extended : block.extend (data.take dataLen.toNat) =
      ⟨block.address, block.length + dataLen, block.data ++ data.take dataLen.toNat⟩ := by
    simp only [Block.extend, taken_word data dataLen enough]
  have kept : heap.request.2.stored pointer = some ⟨block, next⟩ := found
  refine ⟨heap.request.2.put pointer ⟨block.extend (data.take dataLen.toNat), next⟩,
    ?_, ⟨?_, ?_, ?_⟩, ?_, ?_⟩
  · simp only [appendToBlock, heap.read_stored pointer _ found, ok_bind, granted, if_true, copied,
      heap.request.2.write_stored pointer _ _ kept, extended]
  · have frame := (owns_cells heap heap.request.2 hexFile _ owns rfl).chain
    obtain ⟨_, sameFound, requestEarly, requestLate, _, _⟩ :=
      chain_split _ _ front back pointer block frame
    have sameNext := Option.some.inj (sameFound.symm.trans kept)
    obtain ⟨_, rfl⟩ := Node.mk.inj sameNext
    exact chain_relink _ _ _ _ front back pointer _ _ kept requestEarly requestLate
      earlyFree lateFree
  · have atTail := owns.tail
    rw [List.getLast?_append, List.getLast?_cons] at atTail ⊢
    cases last : back.getLast? <;> simpa [last] using atTail
  · intro other member
    simp only [values_append, values_cons, List.mem_append, List.mem_cons] at member
    rcases member with inFront | rfl | inBack
    · exact owns.sized other (by simp [inFront])
    · exact extend_sized block _ sized (by rw [taken_length data dataLen enough]; exact room)
    · exact owns.sized other (by simp [inBack])
  · exact (heap.request_generous generous).2
  · intro other node absent unchanged
    have different : other ≠ pointer := fun same => absent (by simp [same])
    rw [heap.request.2.put_stored pointer other _ _ kept, if_neg different]
    exact unchanged

/-- An extension past the length field writes outside the reallocated array. The array was
reallocated to the wrapped length. -/
theorem append_overflow (heap : Heap Block) (hexFile : IntelHexFormat)
    (front back : List BlockNode) (pointer : Nat) (block : Block) (data : List u8) (dataLen : u32)
    (owns : Owns heap hexFile (front ++ (pointer, block) :: back)) (generous : heap.Generous)
    (wraps : 2 ^ 32 ≤ block.length.toNat + dataLen.toNat) :
    appendToBlock heap hexFile pointer data dataLen = .error .outOfBounds := by
  obtain ⟨next, found, _⟩ := chain_split heap _ front back pointer block owns.chain
  have granted : heap.request.1 = true := (heap.request_generous generous).1
  have sized : block.Sized := owns.sized block (by simp)
  have short : (block.length + dataLen).toNat < block.data.length + dataLen.toNat := by
    have lengthBound := block.length.toNat_lt
    have dataBound := dataLen.toNat_lt
    rw [UInt32.toNat_add, sized]
    omega
  have faulted := short_copy block.data data _ dataLen.toNat 0 short
  rw [show block.data.length = block.length.toNat from sized] at faulted
  simp only [appendToBlock, heap.read_stored pointer _ found, ok_bind, granted, if_true, faulted,
    error_bind]

/-- Walking to the end remembers the last pointer met. Proof: by induction on the nodes. -/
theorem walk_last (nodes : List BlockNode) (state : Option Nat) :
    walkList (fun _ pointer _ => .continue (some pointer)) nodes state =
      (nodes.getLast?.map Prod.fst).or state := by
  induction nodes generalizing state with
  | nil => rfl
  | cons node rest inductionHypothesis =>
    obtain ⟨pointer, block⟩ := node
    simp only [walkList]
    rw [inductionHypothesis, List.getLast?_cons]
    cases rest.getLast? <;> simp

/-- From any node of the list, the tail pointer advances to the last one. What lies behind it on
the list makes no difference. -/
theorem advance_tail (heap : Heap Block) (hexFile : IntelHexFormat) (front back : List BlockNode)
    (pointer : Nat) (block : Block)
    (chain : Chain heap hexFile.blockHead (front ++ (pointer, block) :: back) none)
    (inside : hexFile.blockTail = some pointer) :
    advanceTail heap hexFile = .ok { hexFile with
      blockTail := (front ++ (pointer, block) :: back).getLast?.map Prod.fst } := by
  obtain ⟨next, found, _, late, _, _⟩ := chain_split heap _ front back pointer block chain
  have rest : Chain heap (some pointer) ((pointer, block) :: back) none := ⟨rfl, next, found, late⟩
  have walked := walk_chain heap (fun _ pointer _ => .continue (some pointer)) heap.cells.length
    (some pointer) _ (some pointer) rest (chain_fuel heap _ _ rest)
  rw [walk_last, List.getLast?_cons] at walked
  rw [List.getLast?_append, List.getLast?_cons]
  simp only [advanceTail, inside, walked, ok_bind]
  cases back.getLast? <;> simp

/-- An insertion whose overlap test passes links the new block and then moves the
tail pointer to the end of the resulting list. -/
theorem insert_clear (heap changed : Heap Block) (hexFile relinked : IntelHexFormat)
    (addAfter : Option Nat) (address : u32) (data : List u8) (dataLen : u32)
    (front back : List BlockNode) (pointer : Nat) (block : Block)
    (generous : heap.Generous) (enough : dataLen.toNat ≤ data.length)
    (clear : overlaps heap hexFile addAfter address dataLen = .ok false)
    (linked : linkBlock heap.request.2.request.2 hexFile addAfter
      (.fresh address (data.take dataLen.toNat)) = .ok (changed, relinked))
    (chain : Chain changed relinked.blockHead (front ++ (pointer, block) :: back) none)
    (inside : relinked.blockTail = some pointer) :
    insertBlock heap hexFile addAfter address data dataLen =
      .ok (true, changed, { relinked with
        blockTail := (front ++ (pointer, block) :: back).getLast?.map Prod.fst }) := by
  have first := heap.request_generous generous
  have second := heap.request.2.request_generous first.2
  have filled : copy (List.replicate dataLen.toNat 0) 0 data dataLen.toNat =
      .ok (data.take dataLen.toNat) := fresh_copy data dataLen.toNat 0 enough
  have made : (⟨address, dataLen, data.take dataLen.toNat⟩ : Block) =
      .fresh address (data.take dataLen.toNat) := by
    simp only [Block.fresh, taken_word data dataLen enough]
  have advanced := advance_tail changed relinked front back pointer block chain inside
  simp only [insertBlock, clear, ok_bind, Bool.false_eq_true, if_false, first.1, second.1, if_true,
    filled, made, linked, advanced]

/-- The first block of an empty list. Head and tail point to it. -/
theorem insert_first (heap : Heap Block) (hexFile : IntelHexFormat) (address : u32)
    (data : List u8) (dataLen : u32) (owns : Owns heap hexFile []) (generous : heap.Generous)
    (enough : dataLen.toNat ≤ data.length) :
    ∃ pointer changed relinked,
      insertBlock heap hexFile none address data dataLen = .ok (true, changed, relinked) ∧
      Owns changed relinked [(pointer, .fresh address (data.take dataLen.toNat))] ∧
      changed.Generous ∧ SameHeader hexFile relinked ∧ Preserves heap changed [] := by
  have null : hexFile.blockHead = none := owns.chain
  let base := heap.request.2.request.2
  let made := base.create ⟨.fresh address (data.take dataLen.toNat), none⟩
  have chain : Chain made.2 (some made.1)
      ([] ++ (made.1, .fresh address (data.take dataLen.toNat)) :: []) none :=
    ⟨rfl, none, base.create_found _, rfl⟩
  have inserted := insert_clear heap made.2 hexFile
    { hexFile with blockHead := some made.1, blockTail := some made.1 } none address data dataLen
    [] [] made.1 _ generous enough (by simp [overlaps, null]) (by simp only [linkBlock, null]; rfl)
    chain rfl
  refine ⟨made.1, made.2, _, inserted, ⟨chain, rfl, ?_⟩, ?_, rfl, ?_⟩
  · intro block member
    obtain rfl : block = _ := by simpa using member
    exact taken_sized address data dataLen enough
  · exact fun later => generous (later + 1 + 1)
  · exact fun other node _ unchanged => base.create_kept other node _ unchanged

/-- A new head in front of a nonempty list. The tail stays where it was, and the old head follows
the new one. -/
theorem insert_front (heap : Heap Block) (hexFile : IntelHexFormat) (address : u32)
    (data : List u8) (dataLen : u32) (head : BlockNode) (rest : List BlockNode)
    (owns : Owns heap hexFile (head :: rest)) (generous : heap.Generous)
    (enough : dataLen.toNat ≤ data.length) (clear : ¬ head.2.address < address) :
    ∃ pointer changed relinked,
      insertBlock heap hexFile none address data dataLen = .ok (true, changed, relinked) ∧
      Owns changed relinked
        ((pointer, .fresh address (data.take dataLen.toNat)) :: head :: rest) ∧
      changed.Generous ∧ SameHeader hexFile relinked ∧ Preserves heap changed (head :: rest) := by
  obtain ⟨headPointer, headBlock⟩ := head
  obtain ⟨atHead, next, found, _⟩ := owns.chain
  let base := heap.request.2.request.2
  let made := base.create ⟨.fresh address (data.take dataLen.toNat), some headPointer⟩
  have frame : Chain base hexFile.blockHead ((headPointer, headBlock) :: rest) none :=
    chain_frame heap base _ _ _ (fun _ _ => rfl) owns.chain
  have kept := chain_create base ⟨.fresh address (data.take dataLen.toNat), some headPointer⟩ _ _ _
    frame
  have chain : Chain made.2 (some made.1)
      ((made.1, .fresh address (data.take dataLen.toNat)) :: (headPointer, headBlock) :: rest)
      none := ⟨rfl, some headPointer, base.create_found _, atHead ▸ kept⟩
  obtain ⟨front, ⟨lastPointer, lastBlock⟩, split⟩ :=
    (List.eq_nil_or_concat' ((headPointer, headBlock) :: rest)).resolve_left (by simp)
  have inside : hexFile.blockTail = some lastPointer := by
    have atTail := owns.tail
    rw [split] at atTail
    simpa using atTail
  have inserted := insert_clear heap made.2 hexFile { hexFile with blockHead := some made.1 } none
    address data dataLen ((made.1, .fresh address (data.take dataLen.toNat)) :: front) []
    lastPointer lastBlock generous enough
    (by simp [overlaps, atHead, heap.read_stored headPointer _ found, clear])
    (by simp only [linkBlock, atHead]; rfl)
    (by rw [List.cons_append, ← split]; exact chain) inside
  rw [List.cons_append, ← split] at inserted
  refine ⟨made.1, made.2, _, inserted, ⟨chain, rfl, ?_⟩, ?_, rfl, ?_⟩
  · intro block member
    rcases List.mem_cons.mp member with rfl | inRest
    · exact taken_sized address data dataLen enough
    · exact owns.sized block inRest
  · exact fun later => generous (later + 1 + 1)
  · exact fun other node _ unchanged => base.create_kept other node _ unchanged

/-- A new block behind a given node. The overlap test compares the block that
follows, if there is one. -/
theorem insert_after (heap : Heap Block) (hexFile : IntelHexFormat) (address : u32)
    (data : List u8) (dataLen : u32) (front back : List BlockNode) (pointer : Nat) (block : Block)
    (owns : Owns heap hexFile (front ++ (pointer, block) :: back)) (generous : heap.Generous)
    (enough : dataLen.toNat ≤ data.length)
    (clear : overlaps heap hexFile (some pointer) address dataLen = .ok false) :
    ∃ added changed relinked,
      insertBlock heap hexFile (some pointer) address data dataLen = .ok (true, changed, relinked) ∧
      Owns changed relinked
        (front ++ (pointer, block) :: (added, .fresh address (data.take dataLen.toNat)) :: back) ∧
      changed.Generous ∧ SameHeader hexFile relinked ∧
      Preserves heap changed (front ++ (pointer, block) :: back) := by
  let new := Block.fresh address (data.take dataLen.toNat)
  let base := heap.request.2.request.2
  have frame : Chain base hexFile.blockHead (front ++ (pointer, block) :: back) none :=
    chain_frame heap base _ _ _ (fun _ _ => rfl) owns.chain
  obtain ⟨next, found, _⟩ := chain_split base _ _ _ _ _ frame
  let made := base.create ⟨new, next⟩
  obtain ⟨unmoved, chain⟩ := chain_insert base _ next front back pointer block new frame found
  obtain ⟨head, atHead⟩ : ∃ head, hexFile.blockHead = some head := by
    have first := chain_first base _ _ frame
    cases front <;> simp at first <;> exact ⟨_, first⟩
  have linked : linkBlock base hexFile (some pointer) new =
      .ok (made.2.put pointer ⟨block, some made.1⟩, hexFile) := by
    simp only [linkBlock, atHead, base.read_stored pointer _ found, ok_bind]
    rw [Heap.write_stored _ _ _ _ unmoved]
    rfl
  have inserted : insertBlock heap hexFile (some pointer) address data dataLen =
      .ok (true, made.2.put pointer ⟨block, some made.1⟩,
        { hexFile with
          blockTail :=
            (front ++ (pointer, block) :: (made.1, new) :: back).getLast?.map Prod.fst }) := by
    rcases List.eq_nil_or_concat' back with rfl | ⟨middle, ⟨lastPointer, lastBlock⟩, rfl⟩
    · have inside : hexFile.blockTail = some pointer := by simpa using owns.tail
      exact insert_clear heap _ hexFile hexFile (some pointer) address data dataLen front
        [(made.1, new)] pointer block generous enough clear linked chain inside
    · have regroup :
          front ++ (pointer, block) :: (made.1, new) :: (middle ++ [(lastPointer, lastBlock)]) =
            (front ++ (pointer, block) :: (made.1, new) :: middle) ++
              [(lastPointer, lastBlock)] := by
        simp
      have inside : hexFile.blockTail = some lastPointer := by
        have atTail := owns.tail
        rw [← List.cons_append, ← List.append_assoc, List.getLast?_concat] at atTail
        exact atTail
      rw [regroup] at chain ⊢
      exact insert_clear heap _ hexFile hexFile (some pointer) address data dataLen _ []
        lastPointer lastBlock generous enough clear linked chain inside
  refine ⟨made.1, _, _, inserted, ⟨chain, rfl, ?_⟩, ?_, rfl, ?_⟩
  · intro other member
    simp only [values_append, values_cons, List.mem_append, List.mem_cons] at member
    rcases member with inFront | rfl | rfl | inBack
    · exact owns.sized other (by simp [inFront])
    · exact owns.sized other (by simp)
    · exact taken_sized address data dataLen enough
    · exact owns.sized other (by simp [inBack])
  · exact fun later => generous (later + 1 + 1)
  · intro other node outside unchanged
    have different : other ≠ pointer := fun same => outside (by simp [same])
    rw [made.2.put_stored pointer other _ _ unmoved, if_neg different]
    exact base.create_kept other node _ unchanged

/-- An insertion whose overlap test fails changes nothing. The test comes before the requests for
memory. -/
theorem insert_refused (heap : Heap Block) (hexFile : IntelHexFormat) (addAfter : Option Nat)
    (address : u32) (data : List u8) (dataLen : u32)
    (overlapped : overlaps heap hexFile addAfter address dataLen = .ok true) :
    insertBlock heap hexFile addAfter address data dataLen = .ok (false, heap, hexFile) := by
  simp [insertBlock, overlapped]

/-- Everything a returning call guarantees: the list it leaves, the route taken to
it, and what it leaves alone. -/
structure Added (heap : Heap Block) (hexFile : IntelHexFormat) (nodes : List BlockNode)
    (address : u32) (bytes : List u8) (accepted : Bool) (changed : Heap Block)
    (relinked : IntelHexFormat) (after : List BlockNode) : Prop where
  owns : Owns changed relinked after
  route : Route address bytes (values nodes) accepted (values after)
  generous : changed.Generous
  header : SameHeader hexFile relinked
  preserves : Preserves heap changed nodes
  refused : accepted = false → changed = heap ∧ relinked = hexFile

/-- The block to be extended would outgrow its length field. It is the tail, or the
scan found it because the tail ends above the address. -/
def Overflows (blocks : List Block) (address : u32) (count : Nat) : Prop :=
  ∃ front block back, blocks = front ++ block :: back ∧ block.wrappedEnd = address ∧
    2 ^ 32 ≤ block.length.toNat + count ∧ ∀ tail ∈ back.getLast?, address < tail.wrappedEnd

/-- The two ways a call can go: a fault at an overflowing extension, or a return. A return names
the route the call took through the list. -/
def Outcome (heap : Heap Block) (hexFile : IntelHexFormat) (nodes : List BlockNode) (address : u32)
    (data : List u8) (dataLen : u32) : Prop :=
  (addBlock heap hexFile address data dataLen = .error .outOfBounds ∧
    Overflows (values nodes) address dataLen.toNat) ∨
  ∃ accepted changed relinked after,
    addBlock heap hexFile address data dataLen = .ok (accepted, changed, relinked) ∧
    Added heap hexFile nodes address (data.take dataLen.toNat) accepted changed relinked after

/-- A chosen block to append to is extended in place unless it overflows. The room for it is
decided by the length field alone. -/
theorem append_outcome (heap : Heap Block) (hexFile : IntelHexFormat) (front back : List BlockNode)
    (pointer : Nat) (block : Block) (address : u32) (data : List u8) (dataLen : u32)
    (candidate : Option Nat) (owns : Owns heap hexFile (front ++ (pointer, block) :: back))
    (generous : heap.Generous) (enough : dataLen.toNat ≤ data.length)
    (position : findPosition heap hexFile address = .ok (some pointer, candidate))
    (touching : block.wrappedEnd = address)
    (inner : ∀ tail ∈ (values back).getLast?, address < tail.wrappedEnd)
    (route : Route address (data.take dataLen.toNat) (values (front ++ (pointer, block) :: back))
      true (values (front ++ (pointer, block.extend (data.take dataLen.toNat)) :: back))) :
    Outcome heap hexFile (front ++ (pointer, block) :: back) address data dataLen := by
  by_cases room : block.length.toNat + dataLen.toNat < 2 ^ 32
  · obtain ⟨changed, result, after, stillGenerous, preserves⟩ :=
      append_spec heap hexFile front back pointer block data dataLen owns generous enough room
    refine Or.inr ⟨true, changed, hexFile, _, ?_, after, route, stillGenerous, rfl,
      preserves, by simp⟩
    simp [addBlock, position, result]
  · have overflow := append_overflow heap hexFile front back pointer block data dataLen owns
      generous (Nat.le_of_not_lt room)
    refine Or.inl ⟨by simp [addBlock, position, overflow], values front, block, values back,
      by simp, touching, Nat.le_of_not_lt room, inner⟩

/-- The pointer code refines the abstract transition. With every allocation granted
a call takes one of its routes, unless it extends a block past the length field. -/
theorem add_block_cases (heap : Heap Block) (hexFile : IntelHexFormat) (nodes : List BlockNode)
    (address : u32) (data : List u8) (dataLen : u32) (owns : Owns heap hexFile nodes)
    (generous : heap.Generous) (enough : dataLen.toNat ≤ data.length) :
    Outcome heap hexFile nodes address data dataLen := by
  obtain ⟨found, position, placed⟩ := find_position heap hexFile nodes address owns
  have word := taken_word data dataLen enough
  cases placed with
  | empty =>
    obtain ⟨pointer, changed, relinked, result, after, stillGenerous, header, preserves⟩ :=
      insert_first heap hexFile address data dataLen owns generous enough
    exact Or.inr ⟨true, changed, relinked, _, by simp [addBlock, position, result],
      after, .first, stillGenerous, header, preserves, by simp⟩
  | tail front pointer block touching =>
    refine append_outcome heap hexFile front [] pointer block address data dataLen none owns
      generous enough position touching (by simp) ?_
    simpa using @Route.appendTail address (data.take dataLen.toNat) (values front) block touching
  | inner front pointer block back last candidate inner earlier touching =>
    refine append_outcome heap hexFile front (back ++ [last]) pointer block address data dataLen
      candidate owns generous enough position touching (by simpa using inner) ?_
    simpa using @Route.appendInner address (data.take dataLen.toNat) (values front) block
      (values back) last.2 inner earlier touching
  | behind front pointer block behind =>
    obtain ⟨atTail, found⟩ := tail_node heap hexFile front pointer block owns
    obtain ⟨added, changed, relinked, result, after, stillGenerous, header, preserves⟩ :=
      insert_after heap hexFile address data dataLen front [] pointer block owns generous enough
        (by simp [overlaps, heap.read_stored pointer _ found])
    refine Or.inr ⟨true, changed, relinked, _, by simp [addBlock, position, result],
      after, ?_, stillGenerous, header, preserves, by simp⟩
    simpa using @Route.afterTail address (data.take dataLen.toNat) (values front) block behind
  | between front pointer block late back untouched behind ahead =>
    obtain ⟨latePointer, lateBlock⟩ := late
    obtain ⟨next, found, _, ⟨rfl, further, lateFound, _⟩, _, _⟩ :=
      chain_split heap _ _ _ _ _ owns.chain
    have tested : overlaps heap hexFile (some pointer) address dataLen =
        .ok (decide (lateBlock.address < address + dataLen)) := by
      simp [overlaps, heap.read_stored pointer _ found, heap.read_stored latePointer _ lateFound]
    by_cases overlapped : lateBlock.address < address + dataLen
    · have result := insert_refused heap hexFile (some pointer) address data dataLen
        (by rw [tested, decide_eq_true overlapped])
      refine Or.inr ⟨false, heap, hexFile, _, by simp [addBlock, position, result], owns, ?_,
        generous, rfl, fun _ _ _ same => same, fun _ => ⟨rfl, rfl⟩⟩
      simpa using @Route.refuseNext address (data.take dataLen.toNat) (values front) block
        lateBlock (values back) untouched behind ahead (by rw [word]; exact overlapped)
    · obtain ⟨added, changed, relinked, result, after, stillGenerous, header, preserves⟩ :=
        insert_after heap hexFile address data dataLen front _ pointer block owns generous enough
          (by rw [tested, decide_eq_false overlapped])
      refine Or.inr ⟨true, changed, relinked, _, by simp [addBlock, position, result],
        after, ?_, stillGenerous, header, preserves, by simp⟩
      simpa using @Route.between address (data.take dataLen.toNat) (values front) block lateBlock
        (values back) untouched behind ahead (by rw [word]; exact overlapped)
  | before head rest ahead =>
    obtain ⟨headPointer, headBlock⟩ := head
    obtain ⟨atHead, next, found, _⟩ := owns.chain
    have tested : overlaps heap hexFile none address dataLen =
        .ok (decide (headBlock.address < address)) := by
      simp [overlaps, atHead, heap.read_stored headPointer _ found]
    by_cases overlapped : headBlock.address < address
    · have result := insert_refused heap hexFile none address data dataLen
        (by rw [tested, decide_eq_true overlapped])
      exact Or.inr ⟨false, heap, hexFile, _, by simp [addBlock, position, result], owns,
        .refuseHead headBlock (values rest) ahead overlapped,
        generous, rfl, fun _ _ _ same => same, fun _ => ⟨rfl, rfl⟩⟩
    · obtain ⟨added, changed, relinked, result, after, stillGenerous, header, preserves⟩ :=
        insert_front heap hexFile address data dataLen (headPointer, headBlock) rest owns generous
          enough overlapped
      exact Or.inr ⟨true, changed, relinked, _, by simp [addBlock, position, result],
        after, .before headBlock (values rest) ahead overlapped, stillGenerous, header, preserves,
        by simp⟩

end EffiLib.IntelHex
