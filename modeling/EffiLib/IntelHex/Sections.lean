import EffiLib.IntelHex.BinFiles
import EffiLib.IntelHex.FillEmpty

/-!
# One file per section

A section is a maximal run of blocks that touch. `IntelHexFileToBin` writes each to a
file of its own: the first to the given path, the others to names made from it. The new
name is made in the buffer of the old one by cutting at its last period. For the second
section this is the period in front of the extension. For the third it is the one of
`.bin` behind the first address, which stays in the name, and the buffer has no room for
a second one.
-/

namespace EffiLib.IntelHex

open Buffers LinkedHeap Segments

/-- The next block begins where this one ends. The ends are numbers, not wrapped. -/
def touches (early late : Block) : Bool := decide (early.segment.stop = late.segment.start)

/-- The maximal runs of touching blocks. Their concatenation is the list. -/
def sections (blocks : List Block) : List (List Block) := blocks.splitBy touches

/-- The bytes of a section in order. They are what the section's file should hold. -/
def sectionBytes (blocks : List Block) : List u8 := blocks.flatMap Block.data

/-- The address of a section's first byte. An empty section has none and does not occur. -/
def sectionStart (blocks : List Block) : u32 := (blocks.head?.map Block.address).getD 0

/-- The file of a later section: the stem, the start address and `.bin`. It says what the name of
such a file should be. -/
def laterFile (stem : List u8) (blocks : List Block) : List u8 × List u8 :=
  (stem ++ addressText (sectionStart blocks) ++ binSuffix, sectionBytes blocks)

/-- The name and the content of every file there should be. Without a block the first file
is empty. -/
def sectionFiles (stem ext : List u8) : List (List Block) → List (List u8 × List u8)
  | [] => [(stem ++ code '.' :: ext, [])]
  | first :: later => (stem ++ code '.' :: ext, sectionBytes first) :: later.map (laterFile stem)

/-- The call returns `TRUE` and has written exactly these files. A call that returns has
kept every name within its buffer. -/
def WritesSections (heap : Heap Block) (ihf : IntelHexFormat) (stem ext : List u8)
    (creates : List u8 → Bool) (blocks : List Block) : Prop :=
  ∃ changed files,
    intelHexFileToBin heap ihf (some (stem ++ code '.' :: ext)) creates =
      .ok (true, changed, files) ∧
    files.map (fun file => (file.name, file.bytes)) = sectionFiles stem ext (sections blocks)

/-! ## Names in the buffer -/

/-- Cutting at the last period takes off an extension without one. The stem may have periods of
its own. -/
theorem cut_extension (stem ext : List u8) (plain : code '.' ∉ ext) :
    cutPeriod (stem ++ code '.' :: ext) = stem := by
  induction ext using List.reverseRecOn with
  | nil =>
    rw [cutPeriod, if_pos (by simp), List.rdropWhile_concat_neg _ _ _ (by decide),
      List.dropLast_concat]
  | append_singleton front last inductionHypothesis =>
    have frontPlain : code '.' ∉ front := fun member => plain (List.mem_append_left _ member)
    have other : last ≠ code '.' := fun same =>
      plain (List.mem_append_right _ (List.mem_singleton.mpr same.symm))
    have cut := inductionHypothesis frontPlain
    rw [cutPeriod, if_pos (by simp)] at cut ⊢
    rw [← List.cons_append, ← List.append_assoc,
      List.rdropWhile_concat_pos _ _ _ (by simpa using other)]
    exact cut

/-- The next name is made if it fits the buffer with its final zero. Eight digits of the address
and the suffix make twelve characters. -/
theorem next_name (size : Nat) (name : List u8) (address : u32) :
    nextName size name address =
      if (cutPeriod name).length + 12 < size then
        .ok (cutPeriod name ++ addressText address ++ binSuffix)
      else .error .outOfBounds := by
  have digits : (addressText address).length = 8 := hex_text_length _
  have suffix : binSuffix.length = 4 := rfl
  rw [nextName, strcat, digits]
  by_cases fits : (cutPeriod name).length + 12 < size
  · rw [if_pos (by omega), ok_bind, strcat, List.length_append, digits, suffix, if_pos (by omega)]
  · rw [if_neg fits]
    by_cases half : (cutPeriod name).length + 8 < size
    · rw [if_pos half, ok_bind, strcat, List.length_append, digits, suffix, if_neg (by omega)]
    · rw [if_neg half]
      rfl

/-! ## Writing a run of touching blocks -/

section Writing

variable (size : Nat) (creates : List u8 → Bool)

/-- A block is written to the file that is open for it. The loop goes on with the end of this
block. -/
theorem block_written (block : Block) (rest : List Block) (writer opened : BinWriter)
    (sized : block.Sized) (opens : openSection size creates writer block = .ok (some opened)) :
    binBlocks size creates (block :: rest) writer =
      binBlocks size creates rest
        ⟨some block.wrappedEnd, { opened.file with bytes := opened.file.bytes ++ block.data },
          opened.closed⟩ := by
  have length : block.data.length = block.length.toNat := sized
  have written : writeBlock opened block =
      .ok ⟨some block.wrappedEnd,
        { opened.file with bytes := opened.file.bytes ++ block.data }, opened.closed⟩ := by
    rw [writeBlock, if_pos (Nat.le_of_eq length.symm), ← length, List.take_length]
    rfl
  rw [binBlocks, opens, ok_bind]
  simp only [written, ok_bind]

/-- The blocks that touch a written one go to the same file. No new file is opened among them. -/
theorem section_written (block : Block) (blocks rest : List Block) (writer opened : BinWriter)
    (sized : ∀ other ∈ block :: blocks, other.Sized) (below : Below (block :: blocks))
    (contiguous : Contiguous (segments (block :: blocks)))
    (opens : openSection size creates writer block = .ok (some opened)) :
    binBlocks size creates ((block :: blocks) ++ rest) writer =
      binBlocks size creates rest
        ⟨(block :: blocks).getLast?.map Block.wrappedEnd,
          { opened.file with bytes := opened.file.bytes ++ sectionBytes (block :: blocks) },
          opened.closed⟩ := by
  induction blocks generalizing block writer opened with
  | nil =>
    rw [List.singleton_append, block_written size creates block rest writer opened
      (sized block (by simp)) opens]
    simp [sectionBytes]
  | cons next blocks inductionHypothesis =>
    have touching := (List.isChain_cons_cons.mp contiguous).1
    have ends := block.wrapped_end_exact (sized block (by simp)) (below block (by simp))
    rw [touching] at ends
    have here : block.wrappedEnd = next.address := UInt32.toNat_inj.mp ends
    rw [List.cons_append, block_written size creates block _ writer opened (sized block (by simp))
      opens, inductionHypothesis next _ ⟨some block.wrappedEnd,
        { opened.file with bytes := opened.file.bytes ++ block.data }, opened.closed⟩
        (fun other member => sized other (List.mem_cons_of_mem _ member))
        (fun other member => below other (List.mem_cons_of_mem _ member)) contiguous.tail
        (by simp [openSection, here])]
    simp only [sectionBytes, List.flatMap_cons, List.append_assoc, List.getLast?_cons_cons]

/-- A block that does not touch the last one opens the next file, if its name fits. The file that
was open is closed. -/
theorem section_opened (last block : Block) (file : BinFile) (closed : List BinFile)
    (apart : last.wrappedEnd ≠ block.address) (created : ∀ name, creates name = true) :
    openSection size creates ⟨some last.wrappedEnd, file, closed⟩ block =
      if (cutPeriod file.name).length + 12 < size then
        .ok (some ⟨some last.wrappedEnd,
          ⟨cutPeriod file.name ++ addressText block.address ++ binSuffix, some block.address, []⟩,
          closed ++ [file]⟩)
      else .error .outOfBounds := by
  simp only [openSection, ne_eq, apart, not_false_eq_true, if_true, next_name]
  by_cases fits : (cutPeriod file.name).length + 12 < size
  · rw [if_pos fits, if_pos fits, ok_bind, created]
    rfl
  · rw [if_neg fits, if_neg fits, error_bind]

end Writing

/-! ## All sections -/

/-- Runs of blocks that touch within a run and not between two. The loop opens one file for each
of them. -/
structure Sectioned (runs : List (List Block)) : Prop where
  nonempty : ∀ run ∈ runs, run ≠ []
  sized : ∀ run ∈ runs, ∀ block ∈ run, block.Sized
  below : ∀ run ∈ runs, Below run
  contiguous : ∀ run ∈ runs, Contiguous (segments run)
  apart : runs.IsChain fun early late =>
    ∀ last ∈ early.getLast?, ∀ head ∈ late.head?, last.wrappedEnd ≠ head.address

/-- The maximal runs of a list are such runs. This connects the maximal runs with the comparison
of the code, which is on wrapped ends. -/
theorem sections_sectioned (blocks : List Block) (sized : ∀ block ∈ blocks, block.Sized)
    (below : Below blocks) : Sectioned (sections blocks) := by
  have member : ∀ run ∈ sections blocks, ∀ block ∈ run, block ∈ blocks := by
    intro run inRuns block inRun
    rw [← List.flatten_splitBy touches blocks]
    exact List.mem_flatten.mpr ⟨run, inRuns, inRun⟩
  refine ⟨?_, ?_, ?_, ?_, ?_⟩
  · exact fun run inRuns => List.ne_nil_of_mem_splitBy inRuns
  · exact fun run inRuns block inRun => sized block (member run inRuns block inRun)
  · exact fun run inRuns block inRun => below block (member run inRuns block inRun)
  · intro run inRuns
    have chain := List.isChain_of_mem_splitBy inRuns
    rw [Contiguous, segments, List.isChain_map]
    exact chain.imp fun early late touching => of_decide_eq_true touching
  · refine (List.isChain_getLast_head_splitBy touches blocks).imp_of_mem_imp ?_
    rintro early late inRuns _ ⟨nonempty, others, parted⟩ last isLast head isHead
    have belongs := member early inRuns last (List.mem_of_mem_getLast? isLast)
    rw [List.getLast_of_mem_getLast? isLast, List.head_of_mem_head? isHead] at parted
    intro meets
    have touching :=
      (wrapped_end_eq last head.address (sized last belongs) (below last belongs)).mp meets
    exact of_decide_eq_false parted touching

section Runs

variable (size : Nat) (creates : List u8 → Bool) (run : List Block) (rest : List Block)

/-- The first run goes to the file that is open from the start. Its name is the path that the
caller gave. -/
theorem first_written (path : List u8) (nonempty : run ≠ []) (sized : ∀ block ∈ run, block.Sized)
    (below : Below run) (contiguous : Contiguous (segments run)) :
    binBlocks size creates (run ++ rest) ⟨none, ⟨path, none, []⟩, []⟩ =
      binBlocks size creates rest
        ⟨run.getLast?.map Block.wrappedEnd, ⟨path, some (sectionStart run), sectionBytes run⟩,
          []⟩ := by
  obtain ⟨block, blocks, rfl⟩ := List.exists_cons_of_ne_nil nonempty
  exact section_written size creates block blocks rest _ ⟨none, ⟨path, some block.address, []⟩, []⟩
    sized below contiguous rfl

/-- A later run goes to the file of the next name, if that fits. Twelve characters for address and
suffix and the final zero have to fit behind the stem. -/
theorem later_written (last : Block) (file : BinFile) (closed : List BinFile)
    (created : ∀ name, creates name = true)
    (apart : ∀ head ∈ run.head?, last.wrappedEnd ≠ head.address) (nonempty : run ≠ [])
    (sized : ∀ block ∈ run, block.Sized) (below : Below run)
    (contiguous : Contiguous (segments run)) :
    binBlocks size creates (run ++ rest) ⟨some last.wrappedEnd, file, closed⟩ =
      if (cutPeriod file.name).length + 12 < size then
        binBlocks size creates rest
          ⟨run.getLast?.map Block.wrappedEnd,
            ⟨cutPeriod file.name ++ addressText (sectionStart run) ++ binSuffix,
              some (sectionStart run), sectionBytes run⟩, closed ++ [file]⟩
      else .error .outOfBounds := by
  obtain ⟨block, blocks, rfl⟩ := List.exists_cons_of_ne_nil nonempty
  have opens := section_opened size creates last block file closed (apart block rfl) created
  by_cases fits : (cutPeriod file.name).length + 12 < size
  · rw [if_pos fits] at opens ⊢
    exact section_written size creates block blocks rest _ _ sized below contiguous opens
  · rw [if_neg fits] at opens ⊢
    rw [List.cons_append, binBlocks, opens, error_bind]

end Runs

/-- The call, with the loop over the blocks of its list. The name array has room for the path,
eight characters and the zero. -/
theorem to_bin_blocks (heap : Heap Block) (ihf : IntelHexFormat) (blocks : List Block)
    (path : List u8) (creates : List u8 → Bool) (holds : Holds heap ihf blocks)
    (created : ∀ name, creates name = true) :
    intelHexFileToBin heap ihf (some path) creates =
      if heap.grants 0 = true then do
        let (written, files) ← binBlocks (path.length + 8 + 1) creates blocks
          ⟨none, ⟨path, none, []⟩, []⟩
        .ok (written, heap.request.2, files)
      else .ok (false, heap.request.2, []) := by
  obtain ⟨nodes, owns, rfl⟩ := holds
  have chain : Chain heap.request.2 ihf.blockHead nodes none :=
    chain_frame heap _ _ _ _ (fun _ _ => rfl) owns.chain
  have fuel := chain_fuel heap _ _ owns.chain
  have loop := bin_loop_blocks heap.request.2 (path.length + 8 + 1) creates
    (heap.request.2.cells.length + 1) _ nodes ⟨none, ⟨path, none, []⟩, []⟩ chain
    (by rw [Heap.request_size]; omega)
  have granted : heap.request.1 = heap.grants 0 := rfl
  by_cases grant : heap.grants 0 = true
  · simp only [intelHexFileToBin, granted, grant, created, loop, Bool.true_eq_false, if_false,
      if_true]
  · simp only [intelHexFileToBin, granted, grant, if_true, if_neg Bool.false_ne_true]

section Names

variable (stem ext : List u8) (creates : List u8 → Bool)

/-- The given path. The stem may have periods of its own, the extension has none. -/
def givenPath : List u8 := stem ++ code '.' :: ext

/-- The loop over runs of blocks, with the name buffer of the call. The runs are given as lists,
so that their files can be counted. -/
def writeRuns (runs : List (List Block)) : Run (Bool × List BinFile) :=
  binBlocks ((givenPath stem ext).length + 8 + 1) creates runs.flatten
    ⟨none, ⟨givenPath stem ext, none, []⟩, []⟩

/-- The second name fits the buffer if the extension has three characters or more. The extension
is cut off for it, which makes the room. -/
theorem second_written (first second : List Block) (more : List (List Block))
    (sectioned : Sectioned (first :: second :: more)) (plain : code '.' ∉ ext)
    (created : ∀ name, creates name = true) :
    writeRuns stem ext creates (first :: second :: more) =
      if 3 ≤ ext.length then
        binBlocks ((givenPath stem ext).length + 8 + 1) creates more.flatten
          ⟨second.getLast?.map Block.wrappedEnd,
            ⟨(laterFile stem second).1, some (sectionStart second), sectionBytes second⟩,
            [⟨givenPath stem ext, some (sectionStart first), sectionBytes first⟩]⟩
      else .error .outOfBounds := by
  have inFirst : first ∈ first :: second :: more := by simp
  have inSecond : second ∈ first :: second :: more := by simp
  have apart := (List.isChain_cons_cons.mp sectioned.apart).1
  have end? := List.getLast?_eq_some_getLast (sectioned.nonempty first inFirst)
  rw [writeRuns, List.flatten_cons, first_written _ _ first _ _ (sectioned.nonempty first inFirst)
    (sectioned.sized first inFirst) (sectioned.below first inFirst)
    (sectioned.contiguous first inFirst), end?, List.flatten_cons]
  rw [Option.map_some, later_written _ _ second _ _ _ _ created (apart _ end?)
    (sectioned.nonempty second inSecond) (sectioned.sized second inSecond)
    (sectioned.below second inSecond) (sectioned.contiguous second inSecond), givenPath,
    cut_extension stem ext plain]
  have room : stem.length + 12 < (stem ++ code '.' :: ext).length + 8 + 1 ↔ 3 ≤ ext.length := by
    rw [List.length_append, List.length_cons]
    omega
  simp only [room, laterFile, List.nil_append]

/-- The third name keeps the second address, so the third file has a wrong one. It happens where
the buffer has room for both addresses. -/
theorem third_misnamed (size : Nat) (last : Block) (third second : List Block)
    (more : List (List Block)) (path : BinFile) (start : Option u32) (bytes : List u8)
    (files : List BinFile) (nonempty : third ≠ [])
    (sized : ∀ block ∈ third, block.Sized) (below : Below third)
    (contiguous : Contiguous (segments third))
    (apart : ∀ head ∈ third.head?, last.wrappedEnd ≠ head.address)
    (created : ∀ name, creates name = true)
    (returned : binBlocks size creates (third :: more).flatten
      ⟨some last.wrappedEnd, ⟨(laterFile stem second).1, start, bytes⟩, [path]⟩ =
        .ok (true, files)) :
    (files.map BinFile.name)[2]? ≠ some (laterFile stem third).1 := by
  rw [List.flatten_cons, later_written size creates third _ last _ _ created apart nonempty sized
    below contiguous] at returned
  simp only [laterFile, cut_made] at returned
  split at returned
  · obtain ⟨file, further, rfl, name, _⟩ := names_stay size creates _ _ files returned
    have length : ∀ address, (addressText address).length = 8 := fun _ => hex_text_length _
    intro same
    have sameLength := congrArg (Option.map List.length) same
    simp [name, laterFile, length] at sameLength
  · simp at returned

/-- One run is written, a second one if the extension has three characters, and a third
one never under the name it should get. -/
theorem runs_written (runs : List (List Block)) (sectioned : Sectioned runs)
    (plain : code '.' ∉ ext) (created : ∀ name, creates name = true) :
    (∃ files, writeRuns stem ext creates runs = .ok (true, files) ∧
      files.map (fun file => (file.name, file.bytes)) = sectionFiles stem ext runs) ↔
    runs.length ≤ 1 ∨ (runs.length = 2 ∧ 3 ≤ ext.length) := by
  rcases runs with - | ⟨first, - | ⟨second, - | ⟨third, more⟩⟩⟩
  · exact iff_of_true ⟨_, rfl, rfl⟩ (Or.inl (Nat.zero_le 1))
  · have inRuns : first ∈ [first] := by simp
    refine iff_of_true ⟨[⟨givenPath stem ext, some (sectionStart first), sectionBytes first⟩], ?_,
      rfl⟩ (Or.inl (Nat.le_refl 1))
    rw [writeRuns, List.flatten_cons, first_written _ _ first _ _
      (sectioned.nonempty first inRuns) (sectioned.sized first inRuns)
      (sectioned.below first inRuns) (sectioned.contiguous first inRuns)]
    rfl
  · rw [second_written stem ext creates first second [] sectioned plain created]
    by_cases three : 3 ≤ ext.length
    · rw [if_pos three]
      exact iff_of_true ⟨_, rfl, rfl⟩ (Or.inr ⟨rfl, three⟩)
    · rw [if_neg three]
      exact iff_of_false (by simp) (by simp [three])
  · rw [second_written stem ext creates first second (third :: more) sectioned plain created]
    refine iff_of_false ?_ (by simp)
    rintro ⟨files, returned, whole⟩
    by_cases three : 3 ≤ ext.length
    · rw [if_pos three] at returned
      have inSecond : second ∈ first :: second :: third :: more := by simp
      have inThird : third ∈ first :: second :: third :: more := by simp
      have apart := (List.isChain_cons_cons.mp
        (List.isChain_cons_cons.mp sectioned.apart).2).1
      have end? := List.getLast?_eq_some_getLast (sectioned.nonempty second inSecond)
      rw [end?, Option.map_some] at returned
      refine third_misnamed stem creates _ _ third second more _ _ _ files
        (sectioned.nonempty third inThird) (sectioned.sized third inThird)
        (sectioned.below third inThird) (sectioned.contiguous third inThird) (apart _ end?) created
        returned ?_
      have names := congrArg (List.map Prod.fst) whole
      rw [List.map_map] at names
      exact (congrArg (·[2]?) names).trans rfl
    · simp [if_neg three] at returned

end Names

/-- The files are those of the sections exactly if the buffer for the names is allocated and there
is at most one section, or there are two and the extension has three characters. Proof: section by
section, with the length of each new name against the buffer. -/
theorem sections_written (heap : Heap Block) (ihf : IntelHexFormat) (blocks : List Block)
    (stem ext : List u8) (creates : List u8 → Bool) (holds : Holds heap ihf blocks)
    (tidy : Tidy blocks) (below : Below blocks) (plain : code '.' ∉ ext)
    (created : ∀ name, creates name = true) :
    WritesSections heap ihf stem ext creates blocks ↔
      heap.grants 0 = true ∧
        ((sections blocks).length ≤ 1 ∨ ((sections blocks).length = 2 ∧ 3 ≤ ext.length)) := by
  have written := runs_written stem ext creates (sections blocks)
    (sections_sectioned blocks tidy.sized below) plain created
  rw [writeRuns, sections, List.flatten_splitBy] at written
  have call := to_bin_blocks heap ihf blocks (givenPath stem ext) creates holds created
  rw [← sections] at written
  rw [← written, WritesSections, ← givenPath, call]
  by_cases grant : heap.grants 0 = true
  · rw [if_pos grant]
    simp only [grant, true_and]
    constructor
    · rintro ⟨changed, files, returned, whole⟩
      obtain ⟨⟨result, list⟩, looped, returned⟩ := (bind_ok_iff _ _ _).mp returned
      obtain ⟨rfl, -, rfl⟩ : result = true ∧ heap.request.2 = changed ∧ list = files := by
        simpa using returned
      exact ⟨list, looped, whole⟩
    · rintro ⟨files, looped, whole⟩
      exact ⟨heap.request.2, files, by rw [looped]; rfl, whole⟩
  · simp [grant]

/-- Two blocks with a gap between them go to two files. The second name has the address of the
second block. -/
theorem two_sections_written :
    WritesSections (listHeap (byteBlocks [0, 2])) (listFile 1) [code 'a'] ("bin".toList.map code)
      (fun _ => true) (byteBlocks [0, 2]) :=
  (sections_written (listHeap (byteBlocks [0, 2])) (listFile 1) (byteBlocks [0, 2]) [code 'a']
    ("bin".toList.map code) (fun _ => true)
    ⟨[(0, ⟨0, 1, [7]⟩), (1, ⟨2, 1, [7]⟩)],
      ⟨⟨rfl, some 1, rfl, rfl, none, rfl, rfl⟩, rfl, by simp [Block.Sized]⟩, rfl⟩
    ⟨by simp [byteBlocks, Block.Sized], by simp [byteBlocks], by simp [byteBlocks, Segment.stop],
      by simp [byteBlocks, Ascending, Segment.stop]⟩
    (by simp [Below, byteBlocks, Segment.stop]) (by decide) (fun _ => rfl)).mpr
    ⟨rfl, Or.inr ⟨by decide, by decide⟩⟩

/-- With a third section behind a gap the third name does not fit the buffer. The write goes past
the end of the array. -/
theorem third_section_overflows :
    Holds (listHeap (byteBlocks [0, 2, 4])) (listFile 2) (byteBlocks [0, 2, 4]) ∧
    (listHeap (byteBlocks [0, 2, 4])).Generous ∧
    Tidy (byteBlocks [0, 2, 4]) ∧ Below (byteBlocks [0, 2, 4]) ∧
    intelHexFileToBin (listHeap (byteBlocks [0, 2, 4])) (listFile 2)
      (some (givenPath [code 'a'] ("bin".toList.map code))) (fun _ => true) =
        .error .outOfBounds ∧
    ¬ WritesSections (listHeap (byteBlocks [0, 2, 4])) (listFile 2) [code 'a']
      ("bin".toList.map code) (fun _ => true) (byteBlocks [0, 2, 4]) := by
  have overflow : intelHexFileToBin (listHeap (byteBlocks [0, 2, 4])) (listFile 2)
      (some (givenPath [code 'a'] ("bin".toList.map code))) (fun _ => true) =
        .error .outOfBounds := rfl
  refine ⟨⟨[(0, ⟨0, 1, [7]⟩), (1, ⟨2, 1, [7]⟩), (2, ⟨4, 1, [7]⟩)],
      ⟨⟨rfl, some 1, rfl, rfl, some 2, rfl, rfl, none, rfl, rfl⟩, rfl, by simp [Block.Sized]⟩,
      rfl⟩, fun _ => rfl, ⟨by simp [byteBlocks, Block.Sized], by simp [byteBlocks],
      by simp [byteBlocks, Segment.stop], by simp [byteBlocks, Ascending, Segment.stop]⟩,
    by simp [Below, byteBlocks, Segment.stop], overflow, ?_⟩
  rintro ⟨changed, files, returned, _⟩
  rw [← givenPath, overflow] at returned
  simp at returned

end EffiLib.IntelHex
