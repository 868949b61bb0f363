import EffiLib.IntelHex.Output

/-!
# Splitting blocks into records

The loop of the writer tiles the blocks with data records: each continues where the one
before ended, stays inside its block, its page and the given limit, and spells exactly
the bytes it stands for. One pass keeps the loop variables positioned in the list, and
the induction goes over the bytes that remain of a block and then over the blocks.

A record that would leave exactly one byte of its page is made one byte longer than the
maximum or than the rest of the block. `Splits` says when this never happens.
-/

namespace EffiLib.IntelHex

open Buffers LinkedHeap Segments

/-- A data record that stands for the bytes of a block from an offset on, printed with
the right loop variables. -/
structure Piece (limit : Nat) (block : Block) (position : Nat) (addr offset restLen dataLen : u32)
    (line : List u8) : Prop where
  continues : offset.toNat = position
  address : addr.toNat = block.address.toNat + position
  remaining : restLen.toNat + position = block.length.toNat
  positive : 0 < dataLen.toNat
  inside : dataLen.toNat ≤ restLen.toNat
  short : dataLen.toNat ≤ limit
  page : addr.toNat % 65536 + dataLen.toNat ≤ 65536
  spells : line = spelledLine
    (recordBytes 0 addr.toUInt16 ((block.data.drop position).take dataLen.toNat))

/-- The data records among what is printed cover the blocks in order, the first of them
from a position on. Control records may stand anywhere. -/
inductive Tiles (limit : Nat) : List Block → Nat → List Printed → Prop where
  | done : Tiles limit [] 0 []
  | control {blocks : List Block} {position : Nat} {printed : List Printed} (line : List u8)
      (rest : Tiles limit blocks position printed) : Tiles limit blocks position
        (.control line :: printed)
  | inner {block : Block} {blocks : List Block} {position : Nat} {printed : List Printed}
      {addr offset restLen dataLen : u32} {line : List u8}
      (piece : Piece limit block position addr offset restLen dataLen line)
      (unfinished : dataLen.toNat < restLen.toNat)
      (rest : Tiles limit (block :: blocks) (position + dataLen.toNat) printed) :
      Tiles limit (block :: blocks) position (.data addr offset restLen dataLen line :: printed)
  | last {block : Block} {blocks : List Block} {position : Nat} {printed : List Printed}
      {addr offset restLen dataLen : u32} {line : List u8}
      (piece : Piece limit block position addr offset restLen dataLen line)
      (finished : dataLen = restLen) (rest : Tiles limit blocks 0 printed) :
      Tiles limit (block :: blocks) position (.data addr offset restLen dataLen line :: printed)

/-- The upper half of every data record's address is the one announced last. A reader that keeps
the announced base computes these addresses again. -/
inductive Based : u32 → List Printed → Prop where
  | done (ulba : u32) : Based ulba []
  | linear {printed : List Printed} (ulba upper : u32) (rest : Based upper printed) :
      Based ulba (.control (spelledLine (linearBytes upper)) :: printed)
  | data {printed : List Printed} {addr offset restLen dataLen : u32} {line : List u8}
      (rest : Based (addr >>> 16) printed) :
      Based (addr >>> 16) (.data addr offset restLen dataLen line :: printed)

/-- The loop variables stand in the first block, at a position. Behind the last block the current
pointer is null and nothing is asked. -/
structure Positioned (heap : Heap Block) (writer : Writer) (nodes : List BlockNode)
    (position : Nat) : Prop where
  chain : Chain heap writer.current nodes none
  start : ∀ first ∈ nodes.head?, writer.offset.toNat = position ∧
    writer.addr.toNat = first.2.address.toNat + position ∧
    writer.restLen.toNat + position = first.2.length.toNat

/-- A nonempty block inside the address space. An empty block would print a record without
data. -/
structure Writable (block : Block) : Prop where
  sized : block.Sized
  positive : 0 < block.length.toNat
  within : block.address.toNat + block.length.toNat ≤ 2 ^ 32

/-- Every block of a tidy list can be written. It is not empty and lies inside the address
space. -/
theorem tidy_writable (blocks : List Block) (tidy : Tidy blocks) (block : Block)
    (member : block ∈ blocks) :
    Writable block := by
  have sized := tidy.sized block member
  have positive := tidy.nonempty block member
  have within := tidy.within block member
  rw [block.segment_stop sized] at within
  rw [sized] at positive
  exact ⟨sized, positive, within⟩

section Passes

variable (heap : Heap Block) (writer : Writer) (pointer : Nat) (block : Block) (next : Option Nat)
  (nodes : List BlockNode) (position : Nat) (dataLen ulba : u32) (str : List u8)

/-- A record that does not reach the end of the block moves the position behind it. The block
stays the current one. -/
theorem advance_inner (positioned : Positioned heap writer ((pointer, block) :: nodes) position)
    (writable : Writable block) (unfinished : dataLen.toNat < writer.restLen.toNat) :
    ∃ after, advance heap ⟨block, next⟩ writer dataLen ulba str = .ok after ∧
      Positioned heap after ((pointer, block) :: nodes) (position + dataLen.toNat) ∧
      after.ulba = ulba ∧ after.str = str := by
  obtain ⟨continues, address, remaining⟩ := positioned.start _ rfl
  have within := writable.within
  have lengthBound := block.length.toNat_lt
  have rest : (writer.restLen - dataLen).toNat = writer.restLen.toNat - dataLen.toNat :=
    UInt32.toNat_sub_of_le _ _ (UInt32.le_iff_toNat_le.mpr (Nat.le_of_lt unfinished))
  have more : ¬ writer.restLen - dataLen = 0 := by
    rw [← UInt32.toNat_inj, rest]
    have zero : (0 : u32).toNat = 0 := rfl
    omega
  refine ⟨⟨writer.current, writer.addr + dataLen, writer.restLen - dataLen, writer.offset + dataLen,
    ulba, str⟩, by rw [advance, if_neg more], ⟨positioned.chain, ?_⟩, rfl, rfl⟩
  rintro first ⟨rfl⟩
  simp only [UInt32.toNat_add, rest]
  simp only at address remaining
  omega

/-- A record that reaches the end of the block moves to the next one. The loop variables are those
at the start of that block. -/
theorem advance_last (positioned : Positioned heap writer ((pointer, block) :: nodes) position)
    (found : heap.stored pointer = some ⟨block, next⟩) :
    ∃ after, advance heap ⟨block, next⟩ writer writer.restLen ulba str = .ok after ∧
      Positioned heap after nodes 0 ∧ after.ulba = ulba ∧ after.str = str := by
  obtain ⟨_, following, same, chain⟩ := positioned.chain
  obtain rfl : next = following := by
    rw [found] at same
    exact (Node.mk.inj (Option.some.inj same)).2
  have done : writer.restLen - writer.restLen = 0 := UInt32.sub_self _
  cases nodes with
  | nil =>
    obtain rfl : next = none := chain
    exact ⟨⟨none, writer.addr + writer.restLen, writer.restLen - writer.restLen,
      writer.offset + writer.restLen, ulba,
        str⟩, by rw [advance, if_pos done], ⟨rfl, by simp⟩, rfl, rfl⟩
  | cons other others =>
    obtain ⟨otherPointer, otherBlock⟩ := other
    obtain ⟨rfl, further, otherFound, rest⟩ := chain
    refine ⟨⟨some otherPointer, otherBlock.address, otherBlock.length, 0, ulba, str⟩, ?_, ?_, rfl,
      rfl⟩
    · rw [advance, if_pos done]
      simp [heap.read_stored otherPointer _ otherFound]
    · refine ⟨⟨rfl, further, otherFound, rest⟩, ?_⟩
      rintro first ⟨rfl⟩
      exact ⟨rfl, rfl, rfl⟩

end Passes

/-! ## The whole loop -/

section Loop

variable (heap : Heap Block) (bufSize limit : Nat) (maxLen : u32) (good : Nat → Nat → Prop)

/-- From here the loop ends, with the blocks tiled and the upper addresses announced. The fuel
exists, so the loop returns. -/
def LoopTiles (writer : Writer) (blocks : List Block) (position : Nat) : Prop :=
  ∃ fuel printed str, writeLoop heap bufSize maxLen fuel writer = .ok (printed, str) ∧
    str.length = 80 ∧ Tiles limit blocks position printed ∧ Based writer.ulba printed

/-- What is needed of a predicate on address and rest for the loop to go well: the next
piece stays inside the rest and the limit, and the predicate holds behind it. -/
def Progressive : Prop :=
  ∀ address rest, 0 < rest → good address rest →
    0 < pieceLength maxLen.toNat address rest ∧ pieceLength maxLen.toNat address rest ≤ rest ∧
    pieceLength maxLen.toNat address rest ≤ limit ∧
    (pieceLength maxLen.toNat address rest < rest →
      good (address + pieceLength maxLen.toNat address rest)
        (rest - pieceLength maxLen.toNat address rest))

/-- No record crosses a page. The source cuts its length at the next multiple of 65536. -/
theorem piece_page (maxLen address rest : Nat) :
    address % 65536 + pieceLength maxLen address rest ≤ 65536 := by
  by_cases cut : pageRoom address ≤ min rest maxLen + 1
  · rw [pieceLength, if_pos cut, pageRoom]
    omega
  · rw [pieceLength, if_neg cut]
    rw [pageRoom] at cut
    omega

/-- Appending what one pass printed in front of a tiled rest. It is an address record or
nothing. -/
theorem linear_tiles (blocks : List Block) (position : Nat) (linear printed : List Printed)
    (ulba upper : u32) (kind : (linear = [] ∧ ulba = upper) ∨
      linear = [.control (spelledLine (linearBytes upper))])
    (tiles : Tiles limit blocks position printed) (based : Based upper printed) :
    Tiles limit blocks position (linear ++ printed) ∧ Based ulba (linear ++ printed) := by
  rcases kind with ⟨rfl, rfl⟩ | rfl
  · exact ⟨tiles, based⟩
  · exact ⟨tiles.control _, based.linear ulba upper⟩

/-- A block is tiled from every position on, if the loop goes well behind it. The
induction is on the bytes that remain. -/
theorem block_tiles (roomy : 37 ≤ bufSize) (room : limit + 5 ≤ bufSize) (narrow : limit ≤ 34)
    (small : maxLen.toNat ≤ 32) (progressive : Progressive limit maxLen good)
    (pointer : Nat) (block : Block) (nodes : List BlockNode) (writable : Writable block)
    (following : ∀ writer, Positioned heap writer nodes 0 → writer.str.length = 80 →
      LoopTiles heap bufSize limit maxLen writer (values nodes) 0)
    (remaining : Nat) : ∀ (writer : Writer) (position : Nat), writer.restLen.toNat = remaining →
      0 < remaining → Positioned heap writer ((pointer, block) :: nodes) position →
      writer.str.length = 80 → good writer.addr.toNat remaining →
      LoopTiles heap bufSize limit maxLen writer (block :: values nodes) position := by
  induction remaining using Nat.strong_induction_on with
  | _ remaining inductionHypothesis =>
    intro writer position counted positive positioned size fine
    obtain ⟨atPointer, next, found, _⟩ := positioned.chain
    obtain ⟨continues, address, ends⟩ := positioned.start _ rfl
    obtain ⟨grows, inside, short, further⟩ := progressive _ _ positive fine
    generalize computed : recordLength writer.addr writer.restLen maxLen
      (writer.addr >>> 16) = dataLen
    have exactLength := record_length_exact writer.addr writer.restLen maxLen small
    rw [computed, counted] at exactLength
    rw [← exactLength] at grows inside short further
    obtain ⟨str, linear, kept, kind, stepped⟩ :=
      write_step heap bufSize maxLen dataLen writer pointer
      ⟨block, next⟩ atPointer found roomy size computed
      (by rw [writable.sized]; simp only at ends ⊢; omega) (by omega) (by omega)
    have piece : Piece limit block position writer.addr writer.offset writer.restLen dataLen
        (spelledLine (recordBytes 0 writer.addr.toUInt16 ((block.data.drop writer.offset.toNat).take
          dataLen.toNat))) :=
      ⟨continues, address, ends, grows, by omega, short,
        by rw [exactLength]; exact piece_page _ _ _, by rw [continues]⟩
    by_cases last : dataLen.toNat < remaining
    · obtain ⟨after, advanced, moved, sameBase, sameStr⟩ :=
        advance_inner heap writer pointer block next nodes
        position dataLen (writer.addr >>> 16) str positioned writable (by omega)
      obtain ⟨_, nextAddress, nextRest⟩ := moved.start _ rfl
      simp only at address ends nextAddress nextRest
      have fewer : after.restLen.toNat = remaining - dataLen.toNat := by omega
      have nextGood : good after.addr.toNat (remaining - dataLen.toNat) := by
        rw [show after.addr.toNat = writer.addr.toNat + dataLen.toNat by omega]
        exact further last
      obtain ⟨fuel, printed, final, result, finalSize, tiles, based⟩ :=
        inductionHypothesis (remaining - dataLen.toNat) (by omega) after (position + dataLen.toNat)
          fewer (by omega) moved (sameStr ▸ kept) nextGood
      obtain ⟨whole, wholeBased⟩ := linear_tiles limit (block :: values nodes) position linear _
        writer.ulba
        (writer.addr >>> 16) kind (tiles.inner piece (by omega)) (Based.data (sameBase ▸ based))
      refine ⟨fuel + 1, _, final, ?_, finalSize, whole, wholeBased⟩
      simp [writeLoop, atPointer, stepped, advanced, result]
    · have whole : dataLen = writer.restLen := by
        rw [← UInt32.toNat_inj]
        omega
      subst whole
      obtain ⟨after, advanced, moved, sameBase, sameStr⟩ :=
        advance_last heap writer pointer block next nodes
        position (writer.addr >>> 16) str positioned found
      obtain ⟨fuel, printed, final, result, finalSize, tiles, based⟩ :=
        following after moved (sameStr ▸ kept)
      obtain ⟨whole, wholeBased⟩ := linear_tiles limit (block :: values nodes) position linear _
        writer.ulba (writer.addr >>> 16) kind (tiles.last piece rfl) (Based.data (sameBase ▸ based))
      refine ⟨fuel + 1, _, final, ?_, finalSize, whole, wholeBased⟩
      simp [writeLoop, atPointer, stepped, advanced, result]

/-- The loop tiles all blocks. The induction is on the list of nodes. Within a block it is on the
bytes that remain. -/
theorem loop_tiles (roomy : 37 ≤ bufSize) (room : limit + 5 ≤ bufSize) (narrow : limit ≤ 34)
    (small : maxLen.toNat ≤ 32) (progressive : Progressive limit maxLen good)
    (nodes : List BlockNode) (writable : ∀ block ∈ values nodes, Writable block)
    (fine : ∀ block ∈ values nodes, good block.address.toNat block.length.toNat) (writer : Writer)
    (positioned : Positioned heap writer nodes 0) (size : writer.str.length = 80) :
    LoopTiles heap bufSize limit maxLen writer (values nodes) 0 := by
  induction nodes generalizing writer with
  | nil =>
    have null : writer.current = none := positioned.chain
    exact ⟨1, [], writer.str, by simp [writeLoop, null], size, .done, .done _⟩
  | cons node rest inductionHypothesis =>
    obtain ⟨pointer, block⟩ := node
    obtain ⟨_, address, remaining⟩ := positioned.start _ rfl
    simp only [Nat.add_zero] at address remaining
    have first := writable block (by simp)
    refine block_tiles heap bufSize limit maxLen good roomy room narrow small progressive pointer
      block rest first ?_ block.length.toNat writer 0 remaining first.positive positioned size ?_
    · intro following moved kept
      exact inductionHypothesis (fun other member => writable other (by simp [member]))
        (fun other member => fine other (by simp [member])) following moved kept
    · rw [address]
      exact fine block (by simp)

/-- What is needed of a predicate on address and rest to be read off the pieces: it holds of
a piece inside the rest and the limit, if it holds behind it. -/
def Regressive : Prop :=
  ∀ address rest, 0 < rest → pieceLength maxLen.toNat address rest ≤ rest →
    pieceLength maxLen.toNat address rest ≤ limit →
    (pieceLength maxLen.toNat address rest < rest →
      good (address + pieceLength maxLen.toNat address rest)
        (rest - pieceLength maxLen.toNat address rest)) → good address rest

/-- Lines in front that are no data records leave the rest tiled. They name no bytes. -/
theorem Tiles.behind_controls {limit : Nat} (blocks : List Block) (position : Nat)
    (linear printed : List Printed)
    (controls : ∀ other ∈ linear, ∃ text, other = Printed.control text)
    (tiles : Tiles limit blocks position (linear ++ printed)) :
    Tiles limit blocks position printed := by
  induction linear with
  | nil => exact tiles
  | cons first rest inductionHypothesis =>
    obtain ⟨text, rfl⟩ := controls first (by simp)
    cases tiles with
    | control _ following =>
      exact inductionHypothesis (fun other member => controls other (by simp [member])) following

/-- The blocks behind are good when the writer stands at the first of them. The first of them is
the one at hand. -/
theorem rest_good (writer : Writer) (nodes : List BlockNode)
    (positioned : Positioned heap writer nodes 0)
    (here : nodes ≠ [] → good writer.addr.toNat writer.restLen.toNat)
    (others : ∀ block ∈ values nodes.tail, good block.address.toNat block.length.toNat) :
    ∀ block ∈ values nodes, good block.address.toNat block.length.toNat := by
  intro block member
  cases nodes with
  | nil => simp at member
  | cons first rest =>
    obtain ⟨_, address, remaining⟩ := positioned.start _ rfl
    simp only [Nat.add_zero] at address remaining
    rcases List.mem_cons.mp member with rfl | deeper
    · rw [← address, ← remaining]
      exact here (by simp)
    · exact others block deeper

/-- A piece of the length that the loop computes is good if what is left behind it is. It is the
step of the induction over the pieces of a block. -/
theorem piece_good (small : maxLen.toNat ≤ 32) (regress : Regressive limit maxLen good)
    (block : Block) (position : Nat) (addr offset restLen : u32) (line : List u8)
    (piece : Piece limit block position addr offset restLen
      (recordLength addr restLen maxLen (addr >>> 16)) line)
    (behind : (recordLength addr restLen maxLen (addr >>> 16)).toNat < restLen.toNat →
      good (addr.toNat + (recordLength addr restLen maxLen (addr >>> 16)).toNat)
        (restLen.toNat - (recordLength addr restLen maxLen (addr >>> 16)).toNat)) :
    good addr.toNat restLen.toNat := by
  have computed := record_length_exact addr restLen maxLen small
  have positive := piece.positive
  have inside := piece.inside
  have short := piece.short
  rw [computed] at positive inside short behind
  exact regress _ _ (by omega) inside short behind

/-- A loop that returned tiles had only good pieces. The induction is on the fuel; each
pass printed a piece of the computed length. -/
theorem tiles_good (small : maxLen.toNat ≤ 32)
    (regress : Regressive limit maxLen good)
    (fuel : Nat) : ∀ (writer : Writer) (nodes : List BlockNode) (position : Nat)
      (printed later : List Printed) (str : List u8), Positioned heap writer nodes position →
      (∀ block ∈ values nodes, Writable block) →
      writeLoop heap bufSize maxLen fuel writer = .ok (printed, str) →
      Tiles limit (values nodes) position (printed ++ later) →
      (nodes ≠ [] → good writer.addr.toNat writer.restLen.toNat) ∧
        ∀ block ∈ values nodes.tail, good block.address.toNat block.length.toNat := by
  induction fuel with
  | zero => intro writer nodes position printed later str _ _ returned; simp [writeLoop] at returned
  | succ fuel inductionHypothesis =>
    intro writer nodes position printed later str positioned writable returned tiles
    cases nodes with
    | nil => simp
    | cons node rest =>
      obtain ⟨pointer, block⟩ := node
      obtain ⟨atPointer, next, found, _⟩ := positioned.chain
      obtain ⟨continues, address, ends⟩ := positioned.start _ rfl
      simp only [writeLoop, atPointer, reduceCtorEq, if_false] at returned
      obtain ⟨⟨now, after⟩, stepped, returned⟩ := (bind_ok_iff _ _ _).mp returned
      obtain ⟨⟨further, final⟩, looped, returned⟩ := (bind_ok_iff _ _ _).mp returned
      obtain ⟨rfl, rfl⟩ : now ++ further = printed ∧ final = str := by simpa using returned
      obtain ⟨linear, line, text, controls, rfl, advanced⟩ :=
        step_returns heap bufSize maxLen writer after now
        pointer ⟨block, next⟩ atPointer found stepped
      have first := writable block (by simp)
      have piece := Tiles.behind_controls _ _ linear _ controls (by simpa using tiles)
      cases piece with
      | inner piece unfinished following =>
        obtain ⟨moved, sameAfter, nextPosition, _⟩ :=
          advance_inner heap writer pointer block next rest position
          _ (writer.addr >>> 16) text positioned first unfinished
        rw [advanced] at sameAfter
        obtain rfl : after = moved := Except.ok.inj sameAfter
        obtain ⟨nextGood, others⟩ := inductionHypothesis after ((pointer, block) :: rest) _ further
          later final nextPosition writable looped following
        obtain ⟨_, nextAddress, nextRest⟩ := nextPosition.start _ rfl
        refine ⟨fun _ => piece_good limit maxLen good small regress _ _ _ _ _ _ piece ?_, others⟩
        intro _
        have here := nextGood (by simp)
        simp only at address ends nextAddress nextRest
        rwa [show after.addr.toNat = writer.addr.toNat +
          (recordLength writer.addr writer.restLen maxLen (writer.addr >>> 16)).toNat by omega,
          show after.restLen.toNat = writer.restLen.toNat -
          (recordLength writer.addr writer.restLen maxLen
            (writer.addr >>> 16)).toNat by omega] at here
      | last piece finished following =>
        rw [finished] at advanced
        obtain ⟨moved, sameAfter, nextPosition, _⟩ :=
          advance_last heap writer pointer block next rest position
          (writer.addr >>> 16) text positioned found
        rw [advanced] at sameAfter
        obtain rfl : after = moved := Except.ok.inj sameAfter
        obtain ⟨nextGood, others⟩ :=
          inductionHypothesis after rest 0 further later final nextPosition
          (fun other member => writable other (by simp [member])) looped following
        refine ⟨fun _ => piece_good limit maxLen good small regress _ _ _ _ _ _ piece ?_,
          rest_good heap good after rest nextPosition nextGood others⟩
        intro short
        rw [finished] at short
        exact absurd short (Nat.lt_irrefl _)

end Loop

/-! ## When no record is too long -/

/-- The range does not end one byte below a page end, and a record of the full maximum
never ends there while more of the range lies in the page. -/
def Splits (maxLen address rest : Nat) : Prop :=
  (address + rest) % 65536 ≠ 65535 ∧
    ¬ (address % maxLen = maxLen - 1 ∧ address % 65536 ≠ 65535 ∧ 65536 ≤ address % 65536 + rest)

/-- The condition says of one record that it is not too long, and carries over to what
remains. Page ends are multiples of both maximal lengths, so it is decided by the
address at which the range begins. -/
theorem splits_step (maxLen address rest : Nat) (two : maxLen = 16 ∨ maxLen = 32)
    (positive : 0 < rest) :
    Splits maxLen address rest ↔
      pieceLength maxLen address rest ≤ rest ∧ pieceLength maxLen address rest ≤ maxLen ∧
      (pieceLength maxLen address rest < rest →
        Splits maxLen (address + pieceLength maxLen address rest)
          (rest - pieceLength maxLen address rest)) := by
  by_cases cut : pageRoom address ≤ min rest maxLen + 1
  · simp only [pieceLength, if_pos cut]
    simp only [pageRoom, Splits] at cut ⊢
    rcases two with rfl | rfl <;> omega
  · simp only [pieceLength, if_neg cut]
    simp only [pageRoom, Splits] at cut ⊢
    rcases two with rfl | rfl <;> omega

/-- The line length is 16 or 32, by the size of the file. No other length is used. -/
theorem max_length_cases (ihf : IntelHexFormat) :
    (maxLength ihf).toNat = 16 ∨ (maxLength ihf).toNat = 32 := by
  by_cases long : ihf.totalLength > 0xFFFF
  · exact Or.inr (by rw [maxLength, if_pos long]; rfl)
  · exact Or.inl (by rw [maxLength, if_neg long]; rfl)

/-- Control records behind tiles keep them tiles. The trailer consists of such records. -/
theorem tiles_controls (limit : Nat) (blocks : List Block) (position : Nat)
    (printed later : List Printed) (tiles : Tiles limit blocks position printed)
    (controls : ∀ other ∈ later, ∃ text, other = Printed.control text) :
    Tiles limit blocks position (printed ++ later) := by
  induction tiles with
  | done =>
    induction later with
    | nil => exact .done
    | cons first rest inductionHypothesis =>
      obtain ⟨text, rfl⟩ := controls first (by simp)
      exact .control text (inductionHypothesis fun other member =>
        controls other (by simp [member]))
  | control line _ inductionHypothesis => exact .control line inductionHypothesis
  | inner piece unfinished _ inductionHypothesis =>
    exact .inner piece unfinished inductionHypothesis
  | last piece finished _ inductionHypothesis => exact .last piece finished inductionHypothesis

/-- Behind the data only control records are printed. They are the start address and the end of
the file. -/
theorem trailer_controls (ihf : IntelHexFormat) :
    ∀ other ∈ trailer ihf, ∃ text, other = Printed.control text := by
  intro other member
  rcases List.mem_append.mp member with start | ending
  · by_cases written : ihf.startLinearAddress ≠ 0xFFFFFFFF
    · rw [if_pos written] at start
      exact ⟨_, List.mem_singleton.mp start⟩
    · rw [if_neg written] at start
      simp at start
  · exact ⟨_, List.mem_singleton.mp ending⟩

/-- The loop variables in front of the loop. No byte of the first block has been printed yet. -/
theorem positioned_start (heap : Heap Block) (pointer : Nat) (block : Block) (rest : List BlockNode)
    (str : List u8) (chain : Chain heap (some pointer) ((pointer, block) :: rest) none) :
    Positioned heap ⟨some pointer, block.address, block.length, 0, 0xFFFF, str⟩
      ((pointer, block) :: rest) 0 := by
  refine ⟨chain, ?_⟩
  rintro first ⟨rfl⟩
  exact ⟨rfl, rfl, rfl⟩

/-- Writing a nonempty tidy list ends without a fault and tiles the blocks with records of at most
the maximal length exactly when every block splits well. Proof: by induction on the bytes that are
left of a block and then on the blocks; a pass that does not split well prints a record that is
too long or reads behind its block. -/
theorem output_tiles (heap : Heap Block) (ihf : IntelHexFormat) (blocks : List Block)
    (str : TextBuffer) (holds : Holds heap ihf blocks) (tidy : Tidy blocks) (nonempty : blocks ≠ [])
    (ended : ihf.endOfFile = true) :
    (∃ fuel printed, intelHexFileOutput heap ihf 37 fuel str true = .ok (true, printed) ∧
      Tiles (maxLength ihf).toNat blocks 0 printed) ↔
      ∀ block ∈ blocks, Splits (maxLength ihf).toNat block.address.toNat block.length.toNat := by
  obtain ⟨nodes, owns, rfl⟩ := holds
  have writable : ∀ block ∈ values nodes, Writable block := tidy_writable _ tidy
  have two := max_length_cases ihf
  cases nodes with
  | nil => exact absurd rfl nonempty
  | cons node rest =>
    obtain ⟨pointer, block⟩ := node
    obtain ⟨present, next, found, _⟩ := owns.chain
    have chain := owns.chain
    rw [present] at chain
    have start := positioned_start heap pointer block rest str.bytes chain
    constructor
    · rintro ⟨fuel, printed, returned, tiles⟩
      obtain ⟨records, later, final, looped, rfl⟩ :=
        output_returns heap ihf 37 fuel str pointer ⟨block, next⟩
        printed present found returned
      obtain ⟨first, others⟩ := tiles_good heap 37 (maxLength ihf).toNat (maxLength ihf)
        (Splits (maxLength ihf).toNat) (by omega)
        (fun address rest positive inside short further =>
          (splits_step _ address rest two positive).mpr ⟨inside, short, further⟩)
        fuel _ _ 0 records later final start writable looped tiles
      intro other member
      rcases List.mem_cons.mp member with rfl | deeper
      · exact first (by simp)
      · exact others other deeper
    · intro fine
      have progressive : Progressive (maxLength ihf).toNat (maxLength ihf)
          (Splits (maxLength ihf).toNat) := by
        intro address rest positive splits
        obtain ⟨inside, short, further⟩ := (splits_step _ address rest two positive).mp splits
        refine ⟨?_, inside, short, further⟩
        rw [pieceLength, pageRoom]
        split <;> omega
      obtain ⟨fuel, printed, final, looped, size, tiles, _⟩ :=
        loop_tiles heap 37 (maxLength ihf).toNat
        (maxLength ihf) (Splits (maxLength ihf).toNat) (by omega) (by omega) (by omega) (by omega)
          progressive
        _ writable fine _ start str.size
      exact ⟨fuel, printed ++ trailer ihf, output_trailer heap ihf 37 fuel str pointer ⟨block, next⟩
        printed final ended present found (by omega) looped size,
        tiles_controls _ _ _ _ _ tiles (trailer_controls ihf)⟩

/-- A heap with one node. Every later request is granted. -/
def oneBlockHeap (block : Block) : Heap Block := ⟨[some ⟨block, none⟩], fun _ => true⟩

/-- A block across a page end, longer than a record, and one further up. They need records cut at
the limit and at the page, and two announcements. -/
def pageBlocks : List Block := [⟨0xFFF6, 40, List.replicate 40 7⟩, ⟨0x20000, 3, [1, 2, 3]⟩]

/-- The two blocks are written in pieces and tiled. No record crosses the page end. -/
theorem page_blocks_tiled :
    ∃ fuel printed,
      intelHexFileOutput (listHeap pageBlocks) (listFile 1) 37 fuel .zero true =
        .ok (true, printed) ∧
      Tiles 16 pageBlocks 0 printed :=
  (output_tiles (listHeap pageBlocks) (listFile 1) pageBlocks .zero
    ⟨[(0, ⟨0xFFF6, 40, List.replicate 40 7⟩), (1, ⟨0x20000, 3, [1, 2, 3]⟩)],
      ⟨⟨rfl, some 1, rfl, rfl, none, rfl, rfl⟩, rfl, by simp [Block.Sized]⟩, rfl⟩
    ⟨by simp [pageBlocks, Block.Sized], by simp [pageBlocks],
      by simp [pageBlocks, Segment.stop], by simp [pageBlocks, Ascending, Segment.stop]⟩
    (by simp [pageBlocks]) rfl).mpr
    (by
      intro block member
      rcases List.mem_pair.mp member with rfl | rfl
      · exact ⟨by decide, by decide⟩
      · exact ⟨by decide, by decide⟩)

/-- One byte at 0xFFFE: the record is made two bytes long, and the copy reads behind the
data of the block. -/
theorem short_page_overread :
    let block : Block := ⟨0xFFFE, 1, [7]⟩
    Tidy [block] ∧ ∀ fuel printed,
      intelHexFileOutput (oneBlockHeap block) (oneBlockFile 0 block) 37 fuel .zero true ≠
        .ok (true, printed) := by
  refine ⟨tidy_single _ rfl (by decide) (by decide), ?_⟩
  intro fuel printed returned
  cases fuel with
  | zero =>
    have stopped : intelHexFileOutput (oneBlockHeap ⟨0xFFFE, 1, [7]⟩)
      (oneBlockFile 0 ⟨0xFFFE, 1, [7]⟩) 37 0 .zero true = .error .unfinished := rfl
    rw [stopped] at returned
    exact absurd returned (by simp)
  | succ fuel =>
    have faulted : intelHexFileOutput (oneBlockHeap ⟨0xFFFE, 1, [7]⟩)
      (oneBlockFile 0 ⟨0xFFFE, 1, [7]⟩) 37 (fuel + 1) .zero true = .error .outOfBounds := rfl
    rw [faulted] at returned
    exact absurd returned (by simp)

end EffiLib.IntelHex
