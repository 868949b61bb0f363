import EffiLib.IntelHex.LocalArray

/-!
# What has been loaded

A caller sees the blocks of the list in order and the fields of the structure, but not
where the nodes lie. A record leaves this image as it is exactly if it is inert: a control
record that is refused or sets what is set already, a data record outside linear mode, one
whose first range is refused, and one without data at the end of a block. Every byte that
is stored is one more cell, an address with its byte, in the blocks.
-/

namespace EffiLib.IntelHex

open Buffers LinkedHeap Segments

/-- The blocks of the list, read along the pointers. It is what a caller sees of the list. -/
def blockList (heap : Heap Block) (hexFile : IntelHexFormat) : Run (List Block) :=
  heap.walk (fun blocks _ block => .continue (blocks ++ [block])) heap.cells.length
    hexFile.blockHead []

/-- The fields behind the list pointers. Where the nodes lie is left out. -/
def header (hexFile : IntelHexFormat) : IntelHexFormat :=
  { hexFile with blockHead := none, blockTail := none }

/-- Together with the list pointers they are the structure. So structures are compared by their
lists and these fields. -/
theorem header_whole (hexFile other : IntelHexFormat) (head : hexFile.blockHead = other.blockHead)
    (tail : hexFile.blockTail = other.blockTail) (fields : header hexFile = header other) :
    hexFile = other := by
  cases hexFile
  cases other
  simp_all [header]

/-- Two structures with the same blocks and the same fields. A caller cannot tell them apart
without looking at addresses of memory. -/
def SameImage (heap : Heap Block) (hexFile : IntelHexFormat) (other : Heap Block)
    (otherFile : IntelHexFormat) : Prop :=
  blockList heap hexFile = blockList other otherFile ∧ header hexFile = header otherFile

/-- The order of the two structures is immaterial. Blocks and fields are compared for equality. -/
theorem SameImage.symm {heap other : Heap Block} {hexFile otherFile : IntelHexFormat}
    (same : SameImage heap hexFile other otherFile) : SameImage other otherFile heap hexFile :=
  ⟨same.1.symm, same.2.symm⟩

/-- Structures may be compared through a third one. Blocks and fields are compared for
equality. -/
theorem SameImage.trans {first second third : Heap Block}
    {firstFile secondFile thirdFile : IntelHexFormat}
    (early : SameImage first firstFile second secondFile)
    (late : SameImage second secondFile third thirdFile) :
    SameImage first firstFile third thirdFile :=
  ⟨early.1.trans late.1, early.2.trans late.2⟩

/-- Collecting the values of a list. Proof: by induction on the nodes. -/
theorem walk_collect (nodes : List BlockNode) (blocks : List Block) :
    walkList (fun blocks _ block => .continue (blocks ++ [block])) nodes blocks =
      blocks ++ values nodes := by
  induction nodes generalizing blocks with
  | nil => simp [walkList]
  | cons node rest inductionHypothesis =>
    obtain ⟨pointer, block⟩ := node
    simp only [walkList]
    rw [inductionHypothesis, values_cons, List.append_assoc, List.singleton_append]

/-- The blocks that are collected from an owned list are its blocks. The walk follows the `Next`
pointers to null. -/
theorem block_list (heap : Heap Block) (hexFile : IntelHexFormat) (nodes : List BlockNode)
    (owns : Owns heap hexFile nodes) : blockList heap hexFile = .ok (values nodes) := by
  rw [blockList, walk_chain heap _ heap.cells.length _ nodes [] owns.chain
    (chain_fuel heap _ _ owns.chain), walk_collect, List.nil_append]

/-! ## Cells -/

/-- The cells of bytes from an address on, modulo 2^32. They are counted, so that a byte stored
twice is two cells. -/
def rangeCells (address : u32) (bytes : List u8) : Multiset (u32 × u8) :=
  bytes.mapIdx fun offset byte => (address + UInt32.ofNat offset, byte)

/-- The cells of all blocks. Every byte that is stored counts, also where blocks overlap. -/
def storedCells (blocks : List Block) : Multiset (u32 × u8) :=
  (blocks.map fun block => rangeCells block.address block.data).sum

/-- An empty list stores nothing. -/
@[simp] theorem stored_cells_nil : storedCells [] = 0 := rfl

/-- The cells of the first block and of the rest. A cell is counted as often as it is stored. -/
@[simp] theorem stored_cells_cons (block : Block) (rest : List Block) :
    storedCells (block :: rest) = rangeCells block.address block.data + storedCells rest := by
  simp [storedCells]

/-- Cells stored by two lists put together. Both lists count. -/
@[simp] theorem stored_cells_append (front back : List Block) :
    storedCells (front ++ back) = storedCells front + storedCells back := by
  simp [storedCells]

/-- As many cells as bytes. Each byte has one cell. -/
@[simp] theorem range_cells_card (address : u32) (bytes : List u8) :
    Multiset.card (rangeCells address bytes) = bytes.length := by
  rw [rangeCells, Multiset.coe_card, List.length_mapIdx]

/-- The address of a cell is one of the range. It lies some bytes behind the start of the
range. -/
theorem range_cell_address (address : u32) (bytes : List u8) (cell : u32 × u8)
    (member : cell ∈ rangeCells address bytes) :
    ∃ offset < bytes.length, cell.1 = address + UInt32.ofNat offset := by
  obtain ⟨offset, inside, rfl⟩ := List.mem_mapIdx.mp (Multiset.mem_coe.mp member)
  exact ⟨offset, inside, rfl⟩

/-- The first byte lies at the address. Its offset is zero. -/
theorem range_cell_first (address : u32) (byte : u8) (rest : List u8) :
    (address, byte) ∈ rangeCells address (byte :: rest) := by
  rw [rangeCells, List.mapIdx_cons]
  simp

/-- Bytes behind others lie behind them. Their addresses go on where those of the others end. -/
theorem range_cells_append (address : u32) (front back : List u8) :
    rangeCells address (front ++ back) =
      rangeCells address front + rangeCells (address + UInt32.ofNat front.length) back := by
  rw [rangeCells, rangeCells, rangeCells, List.mapIdx_append, Multiset.coe_add]
  simp only [Nat.add_comm _ front.length, UInt32.ofNat_add, UInt32.add_assoc]

/-- An accepting route adds its cells once. The lengths have to be right, because an extension
goes on at the machine end of a block. -/
theorem route_cells (address : u32) (bytes : List u8) (blocks after : List Block)
    (sized : ∀ block ∈ blocks, block.Sized) (route : Route address bytes blocks true after) :
    storedCells after = rangeCells address bytes + storedCells blocks := by
  have fresh : rangeCells (Block.fresh address bytes).address (Block.fresh address bytes).data =
      rangeCells address bytes := rfl
  have extended : ∀ block ∈ blocks, block.wrappedEnd = address →
      rangeCells (block.extend bytes).address (block.extend bytes).data =
        rangeCells block.address block.data + rangeCells address bytes := by
    intro block member touching
    have length : block.data.length = block.length.toNat := sized block member
    rw [← touching, Block.wrappedEnd, ← UInt32.ofNat_toNat (x := block.length), ← length]
    exact range_cells_append block.address block.data bytes
  cases route with
  | first => simp [fresh]
  | appendTail front tail touching =>
    simp only [stored_cells_append, stored_cells_cons, stored_cells_nil,
      extended tail (by simp) touching]
    abel
  | afterTail front tail behind =>
    simp only [stored_cells_append, stored_cells_cons, stored_cells_nil, fresh]
    abel
  | appendInner front block back tail inner earlier touching =>
    simp only [stored_cells_append, stored_cells_cons, stored_cells_nil,
      extended block (by simp) touching]
    abel
  | between front early late back untouched behind ahead clear =>
    simp only [stored_cells_append, stored_cells_cons, fresh]
    abel
  | before head rest ahead clear => simp [fresh]

/-- An accepting route takes no block away. It adds one or extends one. -/
theorem route_length (address : u32) (bytes : List u8) (blocks after : List Block)
    (route : Route address bytes blocks true after) : blocks.length ≤ after.length := by
  cases route with
  | first => exact Nat.zero_le _
  | appendTail front tail touching => simp
  | afterTail front tail behind => simp
  | appendInner front block back tail inner earlier touching => simp
  | between front early late back untouched behind ahead clear => simp
  | before head rest ahead clear => simp

/-! ## Records that change nothing -/

/-- A range at this address is appended to a block. The search stopped at a block that ends
there. -/
def Appends (heap : Heap Block) (hexFile : IntelHexFormat) (address : u32) : Prop :=
  ∃ pointer candidate, findPosition heap hexFile address = .ok (some pointer, candidate)

/-- The record leaves blocks and fields as they are. It is decided on the state in front of the
record. -/
def Inert (heap : Heap Block) (hexFile : IntelHexFormat) (record : CheckedRecord) : Prop :=
  if record.kind = 0 then
    let range := firstRange hexFile record.field record.payload.length
    hexFile.fileMode ≠ .linear ∨ AddRefused heap hexFile range.1 (UInt32.ofNat range.2) ∨
      (record.payload = [] ∧ Appends heap hexFile range.1 ∧ heap.grants 0 = true)
  else record.update hexFile = none ∨ record.update hexFile = some hexFile

/-- Extending by nothing. The length is increased by zero. -/
@[simp] theorem extend_nothing (block : Block) : block.extend [] = block := by
  simp [Block.extend]

/-- The address is the end of a block that a range can be appended to: of the last one, or
of another one if the last one reaches further. -/
def EndsAt (address : u32) (blocks : List Block) : Prop :=
  ∃ last ∈ blocks.getLast?, last.wrappedEnd = address ∨
    (address < last.wrappedEnd ∧ ∃ block ∈ blocks, block.wrappedEnd = address)

/-- No bytes are appended to a list none of whose blocks ends at the address. Each block is
compared with it. -/
theorem untouched_not_end (address : u32) (blocks : List Block)
    (untouched : ∀ block ∈ blocks, block.wrappedEnd ≠ address) : ¬ EndsAt address blocks := by
  rintro ⟨last, atEnd, here | ⟨_, block, member, touching⟩⟩
  · exact untouched last (List.mem_of_mem_getLast? atEnd) here
  · exact untouched block member touching

/-- No bytes are appended to a list whose last block ends in front of the address. The last block
is the only one that is tried then. -/
theorem behind_not_end (address : u32) (front : List Block) (tail : Block)
    (behind : tail.wrappedEnd < address) : ¬ EndsAt address (front ++ [tail]) := by
  rintro ⟨last, atEnd, ends⟩
  obtain rfl : tail = last := by simpa using atEnd
  rcases ends with here | ⟨ahead, _⟩
  · exact UInt32.lt_irrefl _ (here ▸ behind)
  · exact UInt32.lt_asymm ahead behind

/-- No bytes are appended between two neighbours that both miss the address. The blocks in front
miss it as well. -/
theorem between_not_end (address : u32) (front back : List Block) (early : Block)
    (untouched : ∀ other ∈ front, other.wrappedEnd ≠ address)
    (behind : early.wrappedEnd < address) (ahead : ∀ other ∈ back, address < other.wrappedEnd) :
    ¬ EndsAt address (front ++ early :: back) := by
  refine untouched_not_end address _ fun block member => ?_
  rcases List.mem_append.mp member with inFront | atEarly
  · exact untouched block inFront
  · rcases List.mem_cons.mp atEarly with rfl | inBack
    · exact UInt32.ne_of_lt behind
    · exact (UInt32.ne_of_lt (ahead block inBack)).symm

/-- A range is appended exactly where a block ends that the search stops at. Proof: by the cases
of the position that the search finds. -/
theorem appends_iff (heap : Heap Block) (hexFile : IntelHexFormat) (nodes : List BlockNode)
    (address : u32) (owns : Owns heap hexFile nodes) :
    Appends heap hexFile address ↔ EndsAt address (values nodes) := by
  obtain ⟨found, position, placed⟩ := find_position heap hexFile nodes address owns
  have reached : Appends heap hexFile address ↔ found.1.isSome := by
    rw [Appends, position]
    obtain ⟨appendBlock, candidate⟩ := found
    cases appendBlock <;> simp
  rw [reached]
  cases placed with
  | empty => exact iff_of_false (by simp) (untouched_not_end address [] (by simp))
  | tail front pointer block touching =>
    exact iff_of_true rfl ⟨block, by simp, Or.inl touching⟩
  | inner front pointer block back last candidate inner earlier touching =>
    refine iff_of_true rfl ⟨last.2, ?_, Or.inr ⟨inner, block, by simp, touching⟩⟩
    simp [List.getLast?_cons]
  | behind front pointer block behind =>
    rw [values_append]
    exact iff_of_false (by simp) (behind_not_end address (values front) block behind)
  | between front pointer block late back untouched behind ahead =>
    rw [values_append]
    exact iff_of_false (by simp)
      (between_not_end address (values front) (values (late :: back)) block untouched behind ahead)
  | before head rest ahead =>
    exact iff_of_false (by simp) (untouched_not_end address _ fun block member =>
      (UInt32.ne_of_lt (ahead block member)).symm)

/-- A route for no bytes keeps the blocks if the address is the end of one, and otherwise
inserts an empty block. -/
theorem route_nothing (address : u32) (blocks after : List Block)
    (route : Route address [] blocks true after) :
    (after = blocks ∧ EndsAt address blocks) ∨
      (after.length = blocks.length + 1 ∧ ¬ EndsAt address blocks) := by
  cases route with
  | first => exact Or.inr ⟨rfl, untouched_not_end address [] (by simp)⟩
  | appendTail front tail touching =>
    rw [extend_nothing]
    exact Or.inl ⟨rfl, tail, by simp, Or.inl touching⟩
  | afterTail front tail behind =>
    exact Or.inr ⟨by simp, behind_not_end address front tail behind⟩
  | appendInner front block back tail inner earlier touching =>
    rw [extend_nothing]
    refine Or.inl ⟨rfl, tail, ?_, Or.inr ⟨inner, block, by simp, touching⟩⟩
    simp [List.getLast?_cons]
  | between front early late back untouched behind ahead clear =>
    refine Or.inr ⟨?_, between_not_end address front (late :: back) early untouched behind ahead⟩
    simp only [List.length_append, List.length_cons]
    omega
  | before head rest ahead clear =>
    exact Or.inr ⟨rfl, untouched_not_end address _ fun block member =>
      (UInt32.ne_of_lt (ahead block member)).symm⟩

/-! ## The effect of a data record -/

section Effects

variable (heap : Heap Block) (hexFile : IntelHexFormat) (nodes : List BlockNode)

/-- The cells that a record in ranges can add once its first range is stored: of one across
2^32 those behind it, perhaps with those in front of it. -/
def AddedCells (field : u16) (payload : List u8) (cells : Multiset (u32 × u8)) : Prop :=
  let split := 2 ^ 32 - (hexFile.addressBase.toNat + field.toNat)
  if hexFile.addressBase.toNat + field.toNat < 2 ^ 32 ∧
      2 ^ 32 < hexFile.addressBase.toNat + field.toNat + payload.length then
    cells = rangeCells 0 (payload.drop split) ∨
      cells = rangeCells (dataAddress hexFile field) (payload.take split) +
        rangeCells 0 (payload.drop split)
  else cells = rangeCells (dataAddress hexFile field) payload

/-- A stored range has added its cells. It has taken none away. -/
theorem stored_range_cells (address : u32) (bytes : List u8) (changed : Heap Block)
    (relinked : IntelHexFormat) (after : List BlockNode) (owns : Owns heap hexFile nodes)
    (stored : Stored hexFile nodes address bytes changed relinked after) :
    storedCells (values after) = rangeCells address bytes + storedCells (values nodes) :=
  route_cells address bytes (values nodes) (values after) owns.sized stored.route

/-- A range that was added without a refusal is stored. The source returns `FALSE` only where it
refuses. -/
theorem store_taken (address : u32) (bytes : List u8) (accepted : Bool) (changed : Heap Block)
    (relinked : IntelHexFormat) (owns : Owns heap hexFile nodes) (size : bytes.length < 2 ^ 32)
    (clear : ¬ AddRefused heap hexFile address (UInt32.ofNat bytes.length))
    (returned : storeBytes heap hexFile address bytes = .ok (accepted, changed, relinked)) :
    accepted = true ∧ ∃ after, Stored hexFile nodes address bytes changed relinked after := by
  rcases store_outcome heap hexFile nodes address bytes owns size with
    ⟨fault, result⟩ | ⟨others, result, cells⟩ | ⟨others, following, after, result, stored⟩
  · simp [result] at returned
  · refine absurd ((store_refused heap hexFile nodes address bytes owns size).mp ?_) clear
    simp [result, Except.map, unchanged, observed, cells]
  · obtain ⟨rfl, rfl, rfl⟩ : true = accepted ∧ others = changed ∧ following = relinked := by
      simpa [result] using returned
    exact ⟨rfl, after, stored⟩

/-- A record in ranges that returns with its first range not refused has added cells. The second
range is not refused once the first was added. -/
theorem pieces_cells (field : u16) (payload : List u8) (accepted : Bool) (changed : Heap Block)
    (relinked : IntelHexFormat) (owns : Owns heap hexFile nodes) (short : payload.length ≤ 251)
    (clear : ¬ AddRefused heap hexFile (firstRange hexFile field payload.length).1
      (UInt32.ofNat (firstRange hexFile field payload.length).2))
    (returned : storeAll heap hexFile (pieces hexFile field payload) =
      .ok (accepted, changed, relinked)) :
    ∃ after cells, Owns changed relinked after ∧ AddedCells hexFile field payload cells ∧
      storedCells (values after) = cells + storedCells (values nodes) ∧
      (values nodes).length ≤ (values after).length := by
  by_cases crossing : hexFile.addressBase.toNat + field.toNat < 2 ^ 32 ∧
      2 ^ 32 < hexFile.addressBase.toNat + field.toNat + payload.length
  · rw [firstRange, if_pos crossing] at clear
    rw [pieces, if_pos crossing] at returned
    simp only [AddedCells, crossing, and_self, if_true]
    generalize distance : 2 ^ 32 - (hexFile.addressBase.toNat + field.toNat) = split
      at clear returned ⊢
    have size : (payload.drop split).length = payload.length - split := List.length_drop
    rw [storeAll] at returned
    obtain ⟨⟨first, others, following⟩, result, returned⟩ := (bind_ok_iff _ _ _).mp returned
    obtain ⟨rfl, middle, stored⟩ := store_taken heap hexFile nodes 0 (payload.drop split) first
      others following owns (by omega) (size ▸ clear) result
    have low := stored_range_cells heap hexFile nodes 0 _ others following middle owns stored
    have more := route_length _ _ _ _ stored.route
    simp only [if_true, store_all_single] at returned
    rcases store_outcome others following middle (dataAddress hexFile field)
        (payload.take split) stored.owns (by rw [List.length_take]; omega) with
      ⟨fault, second⟩ | ⟨last, second, cells⟩ | ⟨last, final, after, second, high⟩
    · simp [second] at returned
    · obtain ⟨_, rfl, rfl⟩ : false = accepted ∧ last = changed ∧ following = relinked := by
        simpa [second] using returned
      exact ⟨middle, _, owns_cells others last following middle stored.owns cells, Or.inl rfl, low,
        more⟩
    · obtain ⟨_, rfl, rfl⟩ : true = accepted ∧ last = changed ∧ final = relinked := by
        simpa [second] using returned
      refine ⟨after, _, high.owns, Or.inr rfl, ?_, more.trans (route_length _ _ _ _ high.route)⟩
      rw [stored_range_cells others following middle _ _ last final after stored.owns high, low,
        add_assoc]
  · rw [firstRange, if_neg crossing] at clear
    rw [pieces, if_neg crossing, store_all_single] at returned
    simp only [AddedCells, crossing, if_false]
    obtain ⟨_, after, stored⟩ := store_taken heap hexFile nodes _ payload accepted changed relinked
      owns (by omega) clear returned
    exact ⟨after, _, stored.owns, rfl,
      stored_range_cells heap hexFile nodes _ payload changed relinked after owns stored,
      route_length _ _ _ _ stored.route⟩

/-- A record with data adds a cell. Every range of it has a cell for each byte. -/
theorem added_cells_nothing (field : u16) (payload : List u8)
    (added : AddedCells hexFile field payload 0) : payload = [] := by
  simp only [AddedCells] at added
  split_ifs at added with crossing
  · have size : (payload.drop (2 ^ 32 - (hexFile.addressBase.toNat + field.toNat))).length =
        payload.length - (2 ^ 32 - (hexFile.addressBase.toNat + field.toNat)) := List.length_drop
    rcases added with low | both
    · have card := congrArg Multiset.card low
      rw [range_cells_card, Multiset.card_zero, size] at card
      omega
    · have card := congrArg Multiset.card both
      rw [Multiset.card_add, range_cells_card, range_cells_card, Multiset.card_zero, size] at card
      omega
  · have card := congrArg Multiset.card added
    rw [range_cells_card, Multiset.card_zero] at card
    exact List.length_eq_zero_iff.mp card.symm

/-- The image does not depend on what may still be granted. It is read from the cells that are
there. -/
theorem same_cells_image (changed : Heap Block) (cells : changed.cells = heap.cells) :
    SameImage changed hexFile heap hexFile := by
  refine ⟨?_, rfl⟩
  rw [Heap.eq_regrant heap changed cells, blockList, walk_regrant]
  rfl

/-- Structures with the same blocks and fields have the same image. The nodes may lie at other
addresses. -/
theorem same_values_image (changed : Heap Block) (relinked : IntelHexFormat)
    (after : List BlockNode) (owns : Owns heap hexFile nodes)
    (ownsAfter : Owns changed relinked after)
    (blocks : values after = values nodes) (fields : header relinked = header hexFile) :
    SameImage changed relinked heap hexFile := by
  refine ⟨?_, fields⟩
  rw [block_list changed relinked after ownsAfter, block_list heap hexFile nodes owns, blocks]

/-- Structures with the same image have the same blocks. The nodes may lie at other addresses. -/
theorem image_values (changed : Heap Block) (relinked : IntelHexFormat)
    (after : List BlockNode) (owns : Owns heap hexFile nodes)
    (ownsAfter : Owns changed relinked after)
    (same : SameImage changed relinked heap hexFile) : values after = values nodes := by
  have lists := same.1
  rw [block_list changed relinked after ownsAfter, block_list heap hexFile nodes owns] at lists
  exact Except.ok.inj lists

/-- Adding nothing leaves the image exactly if the address is the end of a block and the request
for memory is granted, or the call is refused. -/
theorem store_nothing (address : u32) (owns : Owns heap hexFile nodes) :
    (∃ accepted changed relinked,
      storeBytes heap hexFile address [] = .ok (accepted, changed, relinked) ∧
        SameImage changed relinked heap hexFile) ↔
    AddRefused heap hexFile address 0 ∨ (Appends heap hexFile address ∧ heap.grants 0 = true) := by
  have outcome := add_block_outcomes heap hexFile nodes address [] 0 owns (Nat.le_refl 0)
  have word : UInt32.ofNat ([] : List u8).length = 0 := rfl
  rw [storeBytes, word]
  generalize addBlock heap hexFile address [] 0 = result at outcome ⊢
  cases outcome with
  | refused refuses =>
    exact iff_of_true ⟨false, heap, hexFile, rfl, rfl, rfl⟩ (Or.inl (Or.inl refuses))
  | unallocated clear denied =>
    refine iff_of_false (by simp [Except.map]) ?_
    rintro ((refuses | ⟨_, granted⟩) | ⟨_, granted⟩)
    · exact clear refuses
    · simp [denied] at granted
    · simp [denied] at granted
  | released failing granted =>
    exact iff_of_true ⟨false, _, hexFile, rfl, same_cells_image heap hexFile _ rfl⟩
      (Or.inl (Or.inr ⟨failing, granted⟩))
  | overflow clear granted served overflows =>
    obtain ⟨front, block, back, _, _, wraps, _⟩ := overflows
    have bound := block.length.toNat_lt
    have isZero : (0 : u32).toNat = 0 := rfl
    omega
  | stored clear granted served changed relinked after ownsAfter route sameHeader =>
    rw [appends_iff heap hexFile nodes address owns]
    have counted : Owns changed { relinked with
        totalLength := relinked.totalLength + UInt32.ofNat ([] : List u8).length } after :=
      owns_congr changed relinked _ after ownsAfter rfl rfl
    rcases route_nothing address (values nodes) (values after) route with
      ⟨same, ends⟩ | ⟨longer, open_⟩
    · have fields : header { relinked with
          totalLength := relinked.totalLength + UInt32.ofNat ([] : List u8).length } =
          header hexFile := by
        rw [SameHeader] at sameHeader
        rw [sameHeader]
        simp [header]
      exact iff_of_true ⟨true, changed, _, rfl,
        same_values_image heap hexFile nodes changed _ after owns counted same fields⟩
        (Or.inr ⟨ends, granted⟩)
    · refine iff_of_false ?_ ?_
      · rintro ⟨accepted, others, following, returned, image⟩
        obtain ⟨_, rfl, rfl⟩ : true = accepted ∧ changed = others ∧ { relinked with
            totalLength := relinked.totalLength + UInt32.ofNat ([] : List u8).length } =
              following := by
          simpa [Except.map, credited] using returned
        have same := image_values heap hexFile nodes changed _ after owns counted image
        rw [same] at longer
        omega
      · rintro ((refuses | ⟨failing, _⟩) | ⟨ends, _⟩)
        · exact clear refuses
        · exact served failing
        · exact open_ ends

/-- A record in ranges leaves the image exactly if its first range is refused, or if it carries
nothing and is appended. -/
theorem pieces_image (field : u16) (payload : List u8) (owns : Owns heap hexFile nodes)
    (short : payload.length ≤ 251) :
    (∃ accepted changed relinked, storeAll heap hexFile (pieces hexFile field payload) =
        .ok (accepted, changed, relinked) ∧ SameImage changed relinked heap hexFile) ↔
      let range := firstRange hexFile field payload.length
      AddRefused heap hexFile range.1 (UInt32.ofNat range.2) ∨
        (payload = [] ∧ Appends heap hexFile range.1 ∧ heap.grants 0 = true) := by
  have refusal := pieces_refused heap hexFile nodes field payload owns short
  by_cases refused : AddRefused heap hexFile (firstRange hexFile field payload.length).1
      (UInt32.ofNat (firstRange hexFile field payload.length).2)
  · obtain ⟨changed, result, cells⟩ := (unchanged_iff heap hexFile _).mp (refusal.mpr refused)
    exact iff_of_true ⟨false, changed, hexFile, result, same_cells_image heap hexFile changed cells⟩
      (Or.inl refused)
  · simp only [refused, false_or]
    by_cases nothing : payload = []
    · rw [nothing, List.length_nil, first_range_nothing] at refused ⊢
      rw [pieces_nothing, store_all_single, store_nothing heap hexFile nodes _ owns]
      simp only [true_and]
      exact or_iff_right refused
    · refine iff_of_false ?_ fun inert => nothing inert.1
      rintro ⟨accepted, changed, relinked, returned, image⟩
      obtain ⟨after, cells, ownsAfter, added, stored, _⟩ := pieces_cells heap hexFile nodes field
        payload accepted changed relinked owns short refused returned
      rw [image_values heap hexFile nodes changed relinked after owns ownsAfter image] at stored
      obtain rfl : cells = 0 := by simpa using stored
      exact nothing (added_cells_nothing hexFile field payload added)

/-- A record is inert exactly if it returns and leaves the image as it is. Proof: a record that is
not inert adds a cell, adds a block or changes a field. -/
theorem inert_exactly (record : CheckedRecord) (owns : Owns heap hexFile nodes)
    (short : record.payload.length ≤ 251) :
    Inert heap hexFile record ↔ ∃ accepted changed relinked,
      record.process heap hexFile = .ok (accepted, changed, relinked) ∧
        SameImage changed relinked heap hexFile := by
  rw [Inert, CheckedRecord.process]
  by_cases dataKind : record.kind = 0
  · rw [if_pos dataKind, if_pos dataKind]
    by_cases mode : hexFile.fileMode = .linear
    · rw [if_pos mode, pieces_image heap hexFile nodes record.field record.payload owns short]
      simp [mode]
    · rw [if_neg mode]
      exact iff_of_true (Or.inl mode) ⟨true, heap, hexFile, rfl, rfl, rfl⟩
  · rw [if_neg dataKind, if_neg dataKind]
    cases updates : record.update hexFile with
    | none => exact iff_of_true (Or.inl rfl) ⟨false, heap, hexFile, rfl, rfl, rfl⟩
    | some update =>
      obtain ⟨head, tail, _⟩ := update_list record hexFile update updates
      constructor
      · rintro (refused | same)
        · simp at refused
        · obtain rfl : update = hexFile := Option.some.inj same
          exact ⟨true, heap, update, rfl, rfl, rfl⟩
      · rintro ⟨accepted, changed, relinked, returned, _, fields⟩
        obtain ⟨_, rfl, rfl⟩ : true = accepted ∧ heap = changed ∧ update = relinked := by
          simpa using returned
        exact Or.inr (congrArg some (header_whole update hexFile head tail fields))

/-- A data record that returns and is not inert has added cells. An inert one is refused or has no
bytes to store. -/
theorem data_cells (record : CheckedRecord) (owns : Owns heap hexFile nodes)
    (short : record.payload.length ≤ 251) (dataKind : record.kind = 0)
    (active : ¬ Inert heap hexFile record) (accepted : Bool) (changed : Heap Block)
    (relinked : IntelHexFormat)
    (returned : record.process heap hexFile = .ok (accepted, changed, relinked)) :
    ∃ after cells, Owns changed relinked after ∧
      AddedCells hexFile record.field record.payload cells ∧
      storedCells (values after) = cells + storedCells (values nodes) ∧
      (values nodes).length ≤ (values after).length := by
  rw [Inert, if_pos dataKind, not_or, not_or] at active
  obtain ⟨mode, clear, _⟩ := active
  rw [CheckedRecord.process, if_pos dataKind, if_pos (not_not.mp mode)] at returned
  exact pieces_cells heap hexFile nodes record.field record.payload accepted changed relinked owns
    short clear returned

end Effects

/-! ## The record that a line spells -/

/-- The record of a line that passes the checks. It may take bytes from the initial content of the
array. -/
def spelledRecord (line : List u8) (data : LocalBuffer) : Option CheckedRecord :=
  if IsRecord line ∧ TextChecks data (recordText line) then
    some (recordOf (recordArray line data))
  else none

/-- A spelled record is the one in the array of a line that passes the checks. The text of a line
leaves bytes in the array, and the record is read from these. -/
theorem spelled_iff (line : List u8) (data : LocalBuffer) (record : CheckedRecord) :
    spelledRecord line data = some record ↔ IsRecord line ∧ TextChecks data (recordText line) ∧
      recordOf (recordArray line data) = record := by
  rw [spelledRecord]
  split_ifs with holds
  · simp [holds]
  · refine iff_of_false (by simp) fun all => holds ⟨all.1, all.2.1⟩

/-- If the digits fill every byte that is read, the record does not depend on the array. So what
the array held before does not matter. -/
theorem spelled_full (line : List u8) (first second : LocalBuffer) (record : IsRecord line)
    (full : (pack (digits (recordText line))).length = ((recordText line).length + 1) / 2) :
    spelledRecord line first = spelledRecord line second := by
  obtain ⟨_, _, long⟩ := line_parts (cString line) record.1 record.2
  obtain ⟨checks, same⟩ := full_independent (recordText line) first second long full
  rw [spelledRecord, spelledRecord]
  by_cases passed : TextChecks first (recordText line)
  · rw [if_pos ⟨record, passed⟩, if_pos ⟨record, checks.mp passed⟩, recordArray, recordArray,
      same passed]
  · rw [if_neg fun both => passed both.2, if_neg fun both => passed (checks.mpr both.2)]

/-- A line does what its record does, and nothing without one. Lines are thereby dealt with
through their records. -/
theorem parse_spelled (heap : Heap Block) (hexFile : IntelHexFormat) (line : List u8)
    (data : LocalBuffer) :
    (∀ record, spelledRecord line data = some record →
      parseOneLine heap hexFile line data = record.process heap hexFile ∧
        record.payload.length ≤ 251) ∧
    (spelledRecord line data = none →
      ∃ accepted, parseOneLine heap hexFile line data = .ok (accepted, heap, hexFile)) := by
  rw [spelledRecord, parse_record]
  by_cases record : IsRecord line
  · by_cases checks : TextChecks data (recordText line)
    · rw [if_pos ⟨record, checks⟩, if_pos record, if_pos checks]
      refine ⟨fun spelled same => ?_, by simp⟩
      obtain rfl := Option.some.inj same
      exact ⟨rfl, checked_short line data checks⟩
    · rw [if_neg (fun both => checks both.2), if_pos record, if_neg checks]
      exact ⟨by simp, fun _ => ⟨false, rfl⟩⟩
  · rw [if_neg (fun both => record both.1), if_neg record]
    exact ⟨by simp, fun _ => ⟨true, rfl⟩⟩

end EffiLib.IntelHex
