import EffiLib.IntelHex.BinFiles
import EffiLib.IntelHex.Conservation
import EffiLib.IntelHex.FillEmpty
import EffiLib.IntelHex.LoadedImage

/-!
# From a HEX file to binary files

`l_HexToBin` reads a file, fills the gap behind its first block and writes the rest.
The reading loop stops at the first line that is refused, and neither this nor a
missing end-of-file record reaches the caller: the result is `TRUE` all the same.

A record that is accepted in linear mode is never lost from the blocks, however they
overlap: `AddBlock` only adds. What can still go wrong is where a byte is written. A
section is written from its first address on without regard to 2^32, so what stands past
the top of the address space has no address in its file. This happens behind data at
0xFFFFFFFF, and when the second block begins below the end of the first: the filler
between the two then runs round the whole address space.

So nothing is lost exactly if the lines are in order up to an end-of-file record and no
byte on the way stands past the top only or was read in segmented mode only.
-/

namespace EffiLib.IntelHex

open Buffers LinkedHeap Segments

/-! ## The Lua function -/

/-- The addresses of a record's data bytes, in the state in which it is read. In
segmented mode they stay in the 64 KiB above the base. -/
def recordCells (hexFile : IntelHexFormat) (array : List u8) : List (Nat × u8) :=
  if array.getD 3 0 ≠ 0 then []
  else
    match hexFile.fileMode with
    | .segmented => (payloadOf array).mapIdx fun offset byte =>
        ((hexFile.addressBase.toNat + ((addressField array).toNat + offset) % 65536) % 2 ^ 32, byte)
    | _ => placed hexFile.addressBase (addressField array) (payloadOf array)

/-- Neither its count or address field nor the overlap test has a record refused. It looks at the
state before the record and at the record. -/
def Admitted (heap : Heap Block) (hexFile : IntelHexFormat) (record : CheckedRecord) : Prop :=
  if record.kind = 0 then
    hexFile.fileMode = .linear →
      let range := firstRange hexFile record.field record.payload.length
      ¬ AddRefused heap hexFile range.1 (UInt32.ofNat range.2)
  else record.update hexFile ≠ none

/-- Every record line up to an end-of-file record spells a record that is admitted in the
state in front of the line. The data bytes on the way are listed with the mode in which
they were read. -/
inductive InOrder : Heap Block → IntelHexFormat → List (List u8 × LocalBuffer) →
  List (ModeType × Nat × u8) → Prop where
  | ends {heap : Heap Block} {hexFile : IntelHexFormat} {line : List u8} {data : LocalBuffer}
      {rest : List (List u8 × LocalBuffer)} (record : CheckedRecord)
      (spelled : spelledRecord line data = some record) (kind : record.kind = 1)
      (admitted : Admitted heap hexFile record) :
      InOrder heap hexFile ((line, data) :: rest) []
  | record {heap changed : Heap Block} {hexFile relinked : IntelHexFormat} {line : List u8}
      {data : LocalBuffer} {rest : List (List u8 × LocalBuffer)} {accepted : Bool}
      {cells : List (ModeType × Nat × u8)} (record : CheckedRecord)
      (spelled : spelledRecord line data = some record) (kind : record.kind ≠ 1)
      (admitted : Admitted heap hexFile record)
      (next : parseOneLine heap hexFile line data = .ok (accepted, changed, relinked))
      (following : InOrder changed relinked rest cells) :
      InOrder heap hexFile ((line, data) :: rest)
        ((recordCells hexFile (recordArray line data)).map (hexFile.fileMode, ·) ++ cells)
  | passed {heap : Heap Block} {hexFile : IntelHexFormat} {line : List u8} {data : LocalBuffer}
      {rest : List (List u8 × LocalBuffer)} {cells : List (ModeType × Nat × u8)}
      (other : ¬ IsRecord line) (following : InOrder heap hexFile rest cells) :
      InOrder heap hexFile ((line, data) :: rest) cells

/-- The blocks with the filler behind the first, in the places where they are written. Where the
filler begins below the end of the first block they run round the address space. -/
def writtenSegments (blocks : List Block) : List (Segment u8) :=
  writtenAt none (fillFirst 0xFF blocks)

/-- The byte stands at its address. A reader that knows the first address of the file finds it
there. -/
def InPlace (blocks : List Block) (cell : Nat × u8) : Prop :=
  ∃ segment ∈ writtenSegments blocks, segment.at? cell.1 = some cell.2

/-- The byte stands a multiple of 2^32 above its address. Counted from the start of its file it is
not where its address says. -/
def PastTop (blocks : List Block) (cell : Nat × u8) : Prop :=
  ∃ segment ∈ writtenSegments blocks, ∃ place, 2 ^ 32 ≤ place ∧ place % 2 ^ 32 = cell.1 ∧
    segment.at? place = some cell.2

/-- The lines are in order up to an end-of-file record. In the blocks that are loaded from the
whole file, a byte on the way that was read outside linear mode or stands past the top
stands in place too. -/
def Kept (heap : Heap Block) (content : List u8) (arrays : Nat → LocalBuffer) : Prop :=
  ∃ cells accepted changed ihf blocks,
    InOrder heap .fresh (numbered (fileLines content) arrays) cells ∧
    parseLines heap .fresh (numbered (fileLines content) arrays) = .ok (accepted, changed, ihf) ∧
    Holds changed ihf blocks ∧
    ∀ entry ∈ cells, (entry.1 = .linear → PastTop blocks entry.2) → InPlace blocks entry.2

/-! ## One record -/

section Records

variable (heap changed : Heap Block) (hexFile relinked : IntelHexFormat) (nodes : List BlockNode)
  (accepted : Bool)

end Records

/-! ## All lines -/

section Lines

variable (heap changed : Heap Block) (hexFile relinked : IntelHexFormat) (nodes : List BlockNode)
  (accepted : Bool)

end Lines

/-! ## The conversion -/

/-- In a tidy list nothing stands past the top: the filler ends where the second block begins,
and every block is written at its address. -/
theorem tidy_not_past (blocks : List Block) (tidy : Tidy blocks) (cell : Nat × u8) :
    ¬ PastTop blocks cell := by
  rintro ⟨segment, member, place, above, _, found⟩
  have filled := fill_tidy 0xFF blocks tidy
  rw [writtenSegments, written_ascending none _ filled.ascending (by simp)] at member
  obtain ⟨block, inBlocks, rfl⟩ := List.mem_map.mp member
  have inside := filled.within block inBlocks
  have covered := (block.segment.at_is_some_iff place).mp (Option.isSome_of_eq_some found)
  omega

/-- A file whose lines are in order is kept if its data was read in linear mode and is loaded to a
tidy list. This is the ordinary case: no byte has to be looked for in the files. -/
theorem tidy_kept (heap changed : Heap Block) (content : List u8) (arrays : Nat → LocalBuffer)
    (cells : List (ModeType × Nat × u8)) (accepted : Bool) (ihf : IntelHexFormat)
    (blocks : List Block)
    (ordered : InOrder heap .fresh (numbered (fileLines content) arrays) cells)
    (loaded : parseLines heap .fresh (numbered (fileLines content) arrays) =
      .ok (accepted, changed, ihf))
    (holds : Holds changed ihf blocks) (tidy : Tidy blocks)
    (linear : ∀ entry ∈ cells, entry.1 = .linear) : Kept heap content arrays := by
  refine ⟨cells, accepted, changed, ihf, blocks, ordered, loaded, holds, ?_⟩
  intro entry member outside
  exact absurd (outside (linear entry member)) (tidy_not_past blocks tidy entry.2)

end EffiLib.IntelHex
