import EffiLib.IntelHex.BlockList
import EffiLib.IntelHex.HexText

/-!
# Writing binary files

`IntelHexFileToBin` writes the blocks one after the other. Where a block does not begin
at the machine end of the one before, it goes on in a new file whose name carries the
address. A file remembers that address here, so that its bytes have addresses too.

The names grow in one buffer. Each new name differs from all earlier ones: it has a
digit where the first one had its last period, and the later ones become longer.
-/

namespace EffiLib.IntelHex

open Buffers LinkedHeap Segments

/-- A file with the address of its first byte; a file without a block has none. The address is not
in the file; it is remembered to say where its bytes belong. -/
structure BinFile where
  name : List u8
  start : Option u32
  bytes : List u8
deriving DecidableEq, Repr

/-- Cutting a name at `strrchr(name, '.')`, if there is a period. A period in a directory's name
is found as well. -/
def cutPeriod (name : List u8) : List u8 :=
  if code '.' ∈ name then (name.rdropWhile (· ≠ code '.')).dropLast else name

/-- `strcat` into an array of the given size, which also holds the final zero. A longer result
writes outside of it. -/
def strcat (size : Nat) (dest src : List u8) : Run (List u8) :=
  if dest.length + src.length < size then .ok (dest ++ src) else .error .outOfBounds

/-- `sprintf(addr_str, "%0*X", 8, address)`. Eight upper-case digits, with zeros in front. -/
def addressText (address : u32) : List u8 :=
  hexText [(address >>> 24).toUInt8, (address >>> 16).toUInt8, (address >>> 8).toUInt8,
    address.toUInt8]

/-- The string literal ".bin". Every name made by the loop ends in it. -/
def binSuffix : List u8 := ".bin".toList.map code

/-- The name of the next file, made in the array of the old name. Of a name made before only
`.bin` is cut off, and its address stays. -/
def nextName (size : Nat) (name : List u8) (address : u32) : Run (List u8) := do
  let name ← strcat size (cutPeriod name) (addressText address)
  strcat size name binSuffix

/-- The variables of the loop: `current_addr` has no value before the first block, and
`bin_file_path` is the name of the open file. -/
structure BinWriter where
  currentAddr : Option u32
  file : BinFile
  closed : List BinFile

/-- The first part of a pass: the first block gives the open file its address, and a
block elsewhere than at `current_addr` opens a new file, if it can be created. -/
def openSection (size : Nat) (creates : List u8 → Bool) (writer : BinWriter) (block : Block) :
    Run (Option BinWriter) :=
  match writer.currentAddr with
  | none => .ok (some { writer with file := { writer.file with start := some block.address } })
  | some currentAddr =>
    if currentAddr ≠ block.address then do
      let name ← nextName size writer.file.name block.address
      if creates name then
        .ok (some { writer with
          file := ⟨name, some block.address, []⟩
          closed := writer.closed ++ [writer.file] })
      else .ok none
    else .ok (some writer)

/-- `fwrite` of the block's data; it reads `Length` bytes. The writer remembers the machine end of
the block, which decides whether the next one follows. -/
def writeBlock (writer : BinWriter) (block : Block) : Run BinWriter :=
  if block.length.toNat ≤ block.data.length then
    .ok { writer with
      currentAddr := some (block.address + block.length)
      file := { writer.file with
        bytes := writer.file.bytes ++ block.data.take block.length.toNat } }
  else .error .outOfBounds

/-- The loop over the list; the result lists the files in the order they were opened. It stops
with `FALSE` at the first file that cannot be created. -/
def binLoop (heap : Heap Block) (size : Nat) (creates : List u8 → Bool) :
    Nat → Option Nat → BinWriter → Run (Bool × List BinFile)
  | 0, _, _ => .error .unfinished
  | _ + 1, none, writer => .ok (true, writer.closed ++ [writer.file])
  | fuel + 1, some pointer, writer => do
    let node ← heap.read (some pointer)
    match ← openSection size creates writer node.value with
    | none => .ok (false, writer.closed ++ [writer.file])
    | some writer => do
      let writer ← writeBlock writer node.value
      binLoop heap size creates fuel node.next writer

/-- `IntelHexFileToBin`. `creates` says which files can be opened for writing; a null path faults
in `strlen`. The array for the names is requested first, and what was opened last is closed on
every path. -/
def intelHexFileToBin (heap : Heap Block) (ihf : IntelHexFormat) (filePath : Option (List u8))
    (creates : List u8 → Bool) : Run (Bool × Heap Block × List BinFile) :=
  match filePath with
  | none => .error .nullPointer
  | some path => do
    let (granted, heap) := heap.request
    if granted = false then .ok (false, heap, [])
    else if creates path = false then .ok (false, heap, [])
    else do
      let (written, files) ← binLoop heap (path.length + 8 + 1) creates (heap.cells.length + 1)
        ihf.blockHead ⟨none, ⟨path, none, []⟩, []⟩
      .ok (written, heap, files)

/-! ## Names -/

/-- Cutting a name that was made takes the suffix off. The suffix begins with its only period. -/
theorem cut_made (stem : List u8) : cutPeriod (stem ++ binSuffix) = stem := by
  have suffix : binSuffix = [code '.'] ++ [code 'b'] ++ [code 'i'] ++ [code 'n'] := rfl
  have found : code '.' ∈ stem ++ binSuffix := by simp [suffix]
  rw [cutPeriod, if_pos found, suffix, ← List.append_assoc, ← List.append_assoc,
    ← List.append_assoc, List.rdropWhile_concat_pos _ _ _ (by decide),
    List.rdropWhile_concat_pos _ _ _ (by decide), List.rdropWhile_concat_pos _ _ _ (by decide),
    List.rdropWhile_concat_neg _ _ _ (by decide), List.dropLast_concat]

/-- A name made from another by digits behind its stem. The digits of several addresses may follow
each other. -/
def Renamed (name later : List u8) : Prop :=
  ∃ digits, digits ≠ [] ∧ code '.' ∉ digits ∧ later = cutPeriod name ++ digits ++ binSuffix

/-- The next name is one, and so is every name made from that one. So no later name repeats an
earlier one. -/
theorem next_renamed (size : Nat) (name next : List u8) (address : u32)
    (made : nextName size name address = .ok next) :
    Renamed name next ∧ ∀ later, Renamed next later → Renamed name later := by
  obtain ⟨stem, first, second⟩ := (bind_ok_iff _ _ _).mp made
  have digits : ∀ ch ∈ addressText address, (hexDigit ch).isSome :=
    encodes_valid _ _ (hex_text_encodes _)
  have plain : code '.' ∉ addressText address := fun member => absurd (digits _ member) (by decide)
  have length : (addressText address).length = 8 := hex_text_length _
  have nonempty : addressText address ≠ [] := by
    intro nothing
    rw [nothing] at length
    simp at length
  simp only [strcat] at first second
  split at first
  · obtain rfl : cutPeriod name ++ addressText address = stem := Except.ok.inj first
    split at second
    · obtain rfl : cutPeriod name ++ addressText address ++ binSuffix = next := Except.ok.inj second
      refine ⟨⟨_, nonempty, plain, rfl⟩, ?_⟩
      rintro later ⟨more, _, morePlain, rfl⟩
      refine ⟨addressText address ++ more, by simp [nonempty],
        fun member => (List.mem_append.mp member).elim plain morePlain, ?_⟩
      rw [cut_made, List.append_assoc (cutPeriod name)]
    · simp at second
  · simp at first

/-! ## The loop over the blocks -/

/-- The loop over a list of blocks. Without the heap facts about it go by induction on the
list. -/
def binBlocks (size : Nat) (creates : List u8 → Bool) :
    List Block → BinWriter → Run (Bool × List BinFile)
  | [], writer => .ok (true, writer.closed ++ [writer.file])
  | block :: rest, writer => do
    match ← openSection size creates writer block with
    | none => .ok (false, writer.closed ++ [writer.file])
    | some writer => do
      let writer ← writeBlock writer block
      binBlocks size creates rest writer

/-- Along the list of a file the pointer loop is the loop over its blocks. Proof: by induction on
the nodes. -/
theorem bin_loop_blocks (heap : Heap Block) (size : Nat) (creates : List u8 → Bool) (fuel : Nat)
    (first : Option Nat) (nodes : List BlockNode) (writer : BinWriter)
    (chain : Chain heap first nodes none) (enough : nodes.length < fuel) :
    binLoop heap size creates fuel first writer = binBlocks size creates (values nodes) writer := by
  induction nodes generalizing fuel first writer with
  | nil =>
    obtain rfl : first = none := chain
    cases fuel with
    | zero => simp at enough
    | succ fuel => rfl
  | cons node rest inductionHypothesis =>
    obtain ⟨pointer, block⟩ := node
    obtain ⟨rfl, next, found, following⟩ := chain
    cases fuel with
    | zero => simp at enough
    | succ fuel =>
      have restEnough : rest.length < fuel := by simpa using enough
      simp only [binLoop, heap.read_stored pointer _ found, ok_bind, values_cons, binBlocks]
      refine congrArg (openSection size creates writer block >>= ·) (funext fun opened => ?_)
      cases opened with
      | none => rfl
      | some opened =>
        exact congrArg (writeBlock opened block >>= ·) (funext fun written =>
          inductionHypothesis fuel next written following restEnough)

/-- The open file keeps its name or is closed for a renamed one. Its place in the order does not
change. -/
theorem open_names (size : Nat) (creates : List u8 → Bool) (writer opened : BinWriter)
    (block : Block) (opens : openSection size creates writer block = .ok (some opened)) :
    (opened.closed = writer.closed ∧ opened.file.name = writer.file.name) ∨
      opened.closed = writer.closed ++ [writer.file] ∧
        Renamed writer.file.name opened.file.name ∧
        ∀ later, Renamed opened.file.name later → Renamed writer.file.name later := by
  obtain ⟨currentAddr, file, closed⟩ := writer
  cases currentAddr with
  | none =>
    obtain rfl : _ = opened := by simpa [openSection] using opens
    exact Or.inl ⟨rfl, rfl⟩
  | some currentAddr =>
    simp only [openSection] at opens
    by_cases here : currentAddr = block.address
    · obtain rfl : _ = opened := by simpa [here] using opens
      exact Or.inl ⟨rfl, rfl⟩
    · rw [if_pos here] at opens
      obtain ⟨name, made, opens⟩ := (bind_ok_iff _ _ _).mp opens
      by_cases created : creates name = true
      · obtain rfl : _ = opened := by simpa [created] using opens
        obtain ⟨renamed, onward⟩ := next_renamed size file.name name block.address made
        exact Or.inr ⟨rfl, renamed, onward⟩
      · simp [created] at opens

/-- Files stay in the order in which they were opened, and each name is made from every
earlier one. -/
theorem names_stay (size : Nat) (creates : List u8 → Bool) (blocks : List Block)
    (writer : BinWriter) (files : List BinFile)
    (returned : binBlocks size creates blocks writer = .ok (true, files)) :
    ∃ file more, files = writer.closed ++ file :: more ∧ file.name = writer.file.name ∧
      (file :: more).Pairwise fun early late => Renamed early.name late.name := by
  induction blocks generalizing writer with
  | nil =>
    obtain rfl : writer.closed ++ [writer.file] = files := by simpa [binBlocks] using returned
    exact ⟨writer.file, [], rfl, rfl, List.pairwise_singleton _ _⟩
  | cons block rest inductionHypothesis =>
    rw [binBlocks] at returned
    obtain ⟨result, opens, returned⟩ := (bind_ok_iff _ _ _).mp returned
    cases result with
    | none => simp at returned
    | some opened =>
      obtain ⟨written, writes, returned⟩ := (bind_ok_iff _ _ _).mp returned
      obtain ⟨file, more, whole, name, apart⟩ := inductionHypothesis written returned
      rw [writeBlock] at writes
      split at writes
      · obtain rfl := Except.ok.inj writes
        rcases open_names size creates writer opened block opens with
          ⟨same, kept⟩ | ⟨closed, renamed, onward⟩
        · exact ⟨file, more, by rw [whole, same], name.trans kept, apart⟩
        · refine ⟨writer.file, file :: more, by rw [whole, closed, List.append_assoc]; rfl, rfl,
            List.pairwise_cons.mpr ⟨fun other member => ?_, apart⟩⟩
          rcases List.mem_cons.mp member with rfl | later
          · exact name.symm ▸ renamed
          · exact onward _ (name ▸ (List.pairwise_cons.mp apart).1 other later)
      · simp at writes

/-! ## Every byte is in a file -/

/-- The byte a file has for an address. A file without a block has none. -/
def BinFile.at? (file : BinFile) (address : Nat) : Option u8 :=
  file.start.bind fun start => Segment.at? ⟨start.toNat, file.bytes⟩ address

/-- Where a block is written: behind the place that was reached, if it begins at the
machine end there, and else at its own address. -/
def writtenPlace (reached : Option Nat) (block : Block) : Nat :=
  (reached.filter fun place => place % 2 ^ 32 = block.address.toNat).getD block.address.toNat

/-- The blocks in the places where they are written. A place counts on across 2^32, where
an address begins again at 0. -/
def writtenAt : Option Nat → List Block → List (Segment u8)
  | _, [] => []
  | reached, block :: rest =>
    let place := writtenPlace reached block
    ⟨place, block.data⟩ :: writtenAt (some (place + block.data.length)) rest

/-- Ascending blocks are written at their addresses. Nothing runs past the top then. -/
theorem written_ascending (reached : Option Nat) (blocks : List Block)
    (ascending : Ascending (segments blocks))
    (behind : ∀ place ∈ reached, ∀ block ∈ blocks, place ≤ block.address.toNat) :
    writtenAt reached blocks = segments blocks := by
  induction blocks generalizing reached with
  | nil => rfl
  | cons block rest inductionHypothesis =>
    obtain ⟨ahead, later⟩ := List.pairwise_cons.mp ascending
    have here : writtenPlace reached block = block.address.toNat := by
      cases reached with
      | none => rfl
      | some place =>
        have before := behind place rfl block List.mem_cons_self
        have bound := block.address.toNat_lt
        by_cases same : place % 2 ^ 32 = block.address.toNat
        · rw [writtenPlace, Option.filter_some_pos (by simpa using same), Option.getD_some]
          omega
        · rw [writtenPlace, Option.filter_some_neg (by simpa using same)]
          rfl
    rw [writtenAt, here, segments_cons, inductionHypothesis _ later]
    · rfl
    · rintro place ⟨rfl⟩ other member
      exact ahead other.segment (List.mem_map.mpr ⟨other, member, rfl⟩)

/-- The open file ends at the place that was reached, and `current_addr` is that place
modulo 2^32. Before the first block the file has neither address nor bytes. -/
def Reaches (writer : BinWriter) (reached : Option Nat) : Prop :=
  match writer.currentAddr with
  | none => reached = none ∧ writer.file.start = none ∧ writer.file.bytes = []
  | some currentAddr => ∃ start, writer.file.start = some start ∧
    reached = some (start.toNat + writer.file.bytes.length) ∧
    currentAddr.toNat = (start.toNat + writer.file.bytes.length) % 2 ^ 32

end EffiLib.IntelHex
