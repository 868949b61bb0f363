import EffiLib.Library.LinkedHeap
import EffiLib.Library.Segments

/-!
# Intel HEX images in memory

The loaded file is a heap list of blocks hanging off `IntelHexFormat`. Addresses
and lengths are machine words, so the end of a block is computed modulo 2^32 by
the code and over the integers by the address map it stands for.

`Owns` relates the two: from `blockHead` one meets exactly the given nodes,
`blockTail` is the last of them, and every block has as many bytes as its length
says. Console messages of the source are not part of the state.
-/

namespace EffiLib.IntelHex

open Buffers LinkedHeap Segments

/-- The source's `u8`. -/
abbrev u8 := UInt8

/-- The source's `u16`. -/
abbrev u16 := UInt16

/-- The source's `u32`. -/
abbrev u32 := UInt32

/-- The source's `u64`. -/
abbrev u64 := UInt64

/-- A block of consecutive bytes; its `Next` pointer belongs to the heap node. The `length` field
is a word of its own beside the bytes. -/
structure Block where
  address : u32
  length : u32
  data : List u8
deriving DecidableEq, Repr

/-- `MODE_NONE`, `MODE_SEGMENTED` and `MODE_LINEAR`. A loaded file never has the first of them. -/
inductive ModeType where
  | none
  | segmented
  | linear
deriving DecidableEq, Repr

/-- The loaded file of `intel.h`: a list of blocks between two pointers, the start addresses, and
the base that following records are relative to. -/
structure IntelHexFormat where
  totalLength : u32
  startLinearAddress : u32
  blockHead : Option Nat
  blockTail : Option Nat
  endOfFile : Bool
  addressBase : u32
  fileMode : ModeType
  startSegmentAddress : u32
deriving DecidableEq, Repr

/-- The structure after `memset` to zero. No block, no end of file seen, and no mode. -/
def IntelHexFormat.zero : IntelHexFormat :=
  ⟨0, 0, none, none, false, 0, .none, 0⟩

/-- The structure a file is read into: zero, in linear mode. Every run over the lines of a file
starts in it. -/
def IntelHexFormat.fresh : IntelHexFormat := { IntelHexFormat.zero with fileMode := .linear }

/-- A list node together with its address. Two nodes with the same block are still different
nodes. -/
abbrev BlockNode := Nat × Block

namespace Block

/-- `Address + Length` as the code computes it. It wraps, so a block that reaches the end of the
address space ends at zero. -/
def wrappedEnd (block : Block) : u32 := block.address + block.length

/-- The data array has exactly the recorded length. The code reads `Length` bytes of it, which are
then inside the array. -/
def Sized (block : Block) : Prop := block.data.length = block.length.toNat

/-- The bytes of the block placed at its address over the integers. No address of it is
wrapped. -/
def segment (block : Block) : Segment u8 := ⟨block.address.toNat, block.data⟩

/-- The segment of a block starts at its address. -/
@[simp] theorem segment_start (block : Block) : block.segment.start = block.address.toNat := rfl

/-- The segment of a block holds its bytes. -/
@[simp] theorem segment_items (block : Block) : block.segment.items = block.data := rfl

/-- The integer end of a block with a correct length field. The length field is then the number of
bytes. -/
theorem segment_stop (block : Block) (sized : block.Sized) :
    block.segment.stop = block.address.toNat + block.length.toNat := by
  rw [Segment.stop, segment_start, segment_items, sized]

/-- The machine word is the integer end reduced modulo 2^32. The code compares this word with
addresses. -/
theorem wrapped_end_mod (block : Block) (sized : block.Sized) :
    block.wrappedEnd.toNat = block.segment.stop % 2 ^ 32 := by
  rw [segment_stop block sized, wrappedEnd, UInt32.toNat_add]

/-- A block that ends inside the address space has an exact machine end. Such an end is below
2^32. -/
theorem wrapped_end_exact (block : Block) (sized : block.Sized)
    (inside : block.segment.stop < 2 ^ 32) : block.wrappedEnd.toNat = block.segment.stop := by
  rw [wrapped_end_mod block sized, Nat.mod_eq_of_lt inside]

/-- A block can reach past the address space at most once. Start and length are words. -/
theorem segment_stop_bound (block : Block) (sized : block.Sized) :
    block.segment.stop < 2 ^ 32 + 2 ^ 32 := by
  rw [segment_stop block sized]
  have addressBound := block.address.toNat_lt
  have lengthBound := block.length.toNat_lt
  omega

end Block

/-- The segments of a list of blocks, in list order. The map they hold is what the structure
stores. -/
def segments (blocks : List Block) : List (Segment u8) := blocks.map Block.segment

/-- No block, no segment. -/
@[simp] theorem segments_nil : segments [] = [] := rfl

/-- One segment a block, in order. -/
@[simp] theorem segments_cons (block : Block) (rest : List Block) :
    segments (block :: rest) = block.segment :: segments rest := rfl

/-- Segments of lists put together. They follow each other as the blocks do. -/
@[simp] theorem segments_append (front back : List Block) :
    segments (front ++ back) = segments front ++ segments back := List.map_append

/-- The blocks stored in a list of nodes. Their addresses are forgotten. -/
def values (nodes : List BlockNode) : List Block := nodes.map Prod.snd

/-- No node, no block. -/
@[simp] theorem values_nil : values [] = [] := rfl

/-- One block a node, in order. -/
@[simp] theorem values_cons (node : BlockNode) (rest : List BlockNode) :
    values (node :: rest) = node.2 :: values rest := rfl

/-- Blocks of node lists put together. They follow each other as the nodes do. -/
@[simp] theorem values_append (front back : List BlockNode) :
    values (front ++ back) = values front ++ values back := List.map_append

/-- The structure owns exactly the given nodes, in list order. It is the invariant of a structure
between two calls. -/
structure Owns (heap : Heap Block) (hexFile : IntelHexFormat) (nodes : List BlockNode) : Prop where
  chain : Chain heap hexFile.blockHead nodes none
  tail : hexFile.blockTail = nodes.getLast?.map Prod.fst
  sized : ∀ block ∈ values nodes, block.Sized

/-- The block list of the structure, forgetting the addresses of its nodes. Results that do not
depend on where the nodes lie are stated with it. -/
def Holds (heap : Heap Block) (hexFile : IntelHexFormat) (blocks : List Block) : Prop :=
  ∃ nodes, Owns heap hexFile nodes ∧ values nodes = blocks

/-- A file without blocks owns nothing. Both list pointers are null. -/
theorem owns_nothing (heap : Heap Block) (hexFile : IntelHexFormat)
    (head : hexFile.blockHead = none) (tail : hexFile.blockTail = none) :
    Owns heap hexFile [] := ⟨head, tail, by simp⟩

/-- The nodes owned by a file are determined by the heap. Proof: chains from the same pointer are
the same. -/
theorem owns_unique (heap : Heap Block) (hexFile : IntelHexFormat) (left right : List BlockNode)
    (ownsLeft : Owns heap hexFile left) (ownsRight : Owns heap hexFile right) : left = right :=
  chain_unique heap hexFile.blockHead left right ownsLeft.chain ownsRight.chain

/-- The blocks that a file holds are determined by the heap. They are the values of its nodes. -/
theorem holds_unique (heap : Heap Block) (hexFile : IntelHexFormat) (left right : List Block)
    (holdsLeft : Holds heap hexFile left) (holdsRight : Holds heap hexFile right) :
    left = right := by
  obtain ⟨first, ownsFirst, rfl⟩ := holdsLeft
  obtain ⟨second, ownsSecond, rfl⟩ := holdsRight
  rw [owns_unique heap hexFile first second ownsFirst ownsSecond]

/-- Ownership depends on the two list pointers only. The other fields may be anything. -/
theorem owns_congr (heap : Heap Block) (hexFile changed : IntelHexFormat)
    (nodes : List BlockNode) (owns : Owns heap hexFile nodes)
    (head : changed.blockHead = hexFile.blockHead)
    (tail : changed.blockTail = hexFile.blockTail) : Owns heap changed nodes :=
  ⟨head ▸ owns.chain, tail ▸ owns.tail, owns.sized⟩

/-- Ownership does not depend on what may still be granted. It is about the cells that are
there. -/
theorem owns_cells (heap changed : Heap Block) (hexFile : IntelHexFormat)
    (nodes : List BlockNode) (owns : Owns heap hexFile nodes)
    (cells : changed.cells = heap.cells) : Owns changed hexFile nodes := by
  rw [Heap.eq_regrant heap changed cells]
  exact ⟨(chain_regrant heap _ _ _ nodes).mpr owns.chain, owns.tail, owns.sized⟩

/-- A loaded file whose list is one node. Its end was seen, so that it may be written out. -/
def oneBlockFile (pointer : Nat) (block : Block) : IntelHexFormat :=
  { IntelHexFormat.fresh with
    totalLength := block.length
    blockHead := some pointer
    blockTail := some pointer
    endOfFile := true }

/-- A structure with a single block owns the list of that block alone. Both list pointers name its
node. -/
theorem one_block_owns (heap : Heap Block) (pointer : Nat) (block : Block)
    (found : heap.stored pointer = some ⟨block, none⟩) (sized : block.Sized) :
    Owns heap (oneBlockFile pointer block) [(pointer, block)] :=
  ⟨⟨rfl, none, found, rfl⟩, rfl, by simpa using sized⟩

/-! ## Lists laid out in a heap -/

/-- A heap that holds exactly one list of blocks. The nodes follow each other in memory, and every
later request is granted. -/
def listHeap (blocks : List Block) : Heap Block :=
  ⟨blocks.mapIdx fun pointer block =>
    some ⟨block, if pointer + 1 < blocks.length then some (pointer + 1) else none⟩, fun _ => true⟩

/-- A file whose list starts at the first cell of the heap. Together with such a heap it is a
loaded file of any list of blocks. -/
def listFile (last : Nat) : IntelHexFormat :=
  { IntelHexFormat.fresh with blockHead := some 0, blockTail := some last, endOfFile := true }

end EffiLib.IntelHex
