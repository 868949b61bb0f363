import EffiLib.IntelHex.Atomicity

/-!
# No byte is lost or doubled

Whatever lines are parsed, in whatever order and wherever their records lie, the blocks
hold the payload bytes of the accepted linear data records and no others, each as often
as it was accepted. Every route of `AddBlock` that returns `TRUE` adds its bytes to the
list once, and a record that is refused has not added any. `TotalLength` counts the same
bytes; below 2^32 of them neither it nor the length of a block can wrap.
-/

namespace EffiLib.IntelHex

open Buffers LinkedHeap Segments

/-- All bytes stored in a list of blocks, wherever they lie. As a multiset it counts how often a
byte is stored. -/
def storedBytes (blocks : List Block) : Multiset u8 := blocks.flatMap Block.data

/-- An empty list stores nothing. -/
@[simp] theorem stored_bytes_nil : storedBytes [] = 0 := rfl

/-- The bytes of the first block and of the rest. Multisets count a byte as often as it is
stored. -/
@[simp] theorem stored_bytes_cons (block : Block) (rest : List Block) :
    storedBytes (block :: rest) = block.data + storedBytes rest := by
  simp [storedBytes]

/-- Bytes stored by two lists put together. Both lists count. -/
@[simp] theorem stored_bytes_append (front back : List Block) :
    storedBytes (front ++ back) = storedBytes front + storedBytes back := by
  simp [storedBytes]

/-- An accepting route adds its bytes once. Where they are put makes no difference. -/
theorem route_conserves (address : u32) (bytes : List u8) (blocks after : List Block)
    (route : Route address bytes blocks true after) :
    storedBytes after = bytes + storedBytes blocks := by
  have fresh : (Block.fresh address bytes).data = bytes := rfl
  have extended : ∀ block : Block,
      ((block.extend bytes).data : Multiset u8) = block.data + bytes := by
    intro block
    simp [Block.extend]
  cases route with
  | first => simp [fresh]
  | appendTail front tail touching =>
    simp only [stored_bytes_append, stored_bytes_cons, stored_bytes_nil, extended]
    abel
  | afterTail front tail behind =>
    simp only [stored_bytes_append, stored_bytes_cons, stored_bytes_nil, fresh]
    abel
  | appendInner front block back tail inner earlier touching =>
    simp only [stored_bytes_append, stored_bytes_cons, stored_bytes_nil, extended]
    abel
  | between front early late back untouched behind ahead clear =>
    simp only [stored_bytes_append, stored_bytes_cons, fresh]
    abel
  | before head rest ahead clear => simp [fresh]

/-- A block holds no more than the whole list. So the bound on all bytes is one on the length of
each block. -/
theorem block_bounded (blocks : List Block) (block : Block) (member : block ∈ blocks) :
    block.data.length ≤ Multiset.card (storedBytes blocks) := by
  obtain ⟨front, back, rfl⟩ := List.append_of_mem member
  simp only [stored_bytes_append, stored_bytes_cons, Multiset.card_add, Multiset.coe_card]
  omega

/-- The lengths of sized blocks add up to the number of their bytes. Proof: by induction on the
blocks. -/
theorem lengths_counted (blocks : List Block) (sized : ∀ block ∈ blocks, block.Sized) :
    (blocks.map fun block => block.length.toNat).sum = Multiset.card (storedBytes blocks) := by
  induction blocks with
  | nil => rfl
  | cons block rest inductionHypothesis =>
    have size := sized block List.mem_cons_self
    rw [List.map_cons, List.sum_cons, stored_bytes_cons, Multiset.card_add, Multiset.coe_card,
      inductionHypothesis fun other member => sized other (List.mem_cons_of_mem _ member), size]

/-- The structure owns a list that holds exactly these bytes, and has counted them. This is the
invariant of a run over lines. -/
structure Accounted (heap : Heap Block) (hexFile : IntelHexFormat) (nodes : List BlockNode)
    (held : Multiset u8) : Prop where
  owns : Owns heap hexFile nodes
  generous : heap.Generous
  bytes : storedBytes (values nodes) = held
  total : hexFile.totalLength.toNat = Multiset.card held

section Steps

variable (heap : Heap Block) (hexFile : IntelHexFormat) (nodes : List BlockNode)
  (held : Multiset u8)

/-- Adding a range that fits the count either changes nothing or adds its bytes. A refusal is
found before anything was changed. -/
theorem range_accounted (address : u32) (bytes : List u8)
    (account : Accounted heap hexFile nodes held)
    (room : bytes.length + Multiset.card held < 2 ^ 32) :
    storeBytes heap hexFile address bytes = .ok (false, heap, hexFile) ∨
    ∃ changed relinked after,
      storeBytes heap hexFile address bytes = .ok (true, changed, relinked) ∧
      Accounted changed relinked after (bytes + held) := by
  rcases store_generous heap hexFile nodes address bytes account.owns account.generous
    (by omega) with
    ⟨_, front, block, back, whole, _, overflows, _⟩ | ⟨refused, _⟩ |
    ⟨changed, relinked, after, result, stored, generous⟩
  · have member : block ∈ values nodes := by simp [whole]
    have bound := block_bounded (values nodes) block member
    rw [account.bytes, account.owns.sized block member] at bound
    omega
  · exact Or.inl refused
  · refine Or.inr ⟨changed, relinked, after, result, ⟨stored.owns, generous, ?_, ?_⟩⟩
    · rw [route_conserves _ _ _ _ stored.route, account.bytes]
    · have counted := stored.counted
      rw [Counted] at counted
      rw [counted, UInt32.toNat_add, account.total, Multiset.card_add, Multiset.coe_card,
        UInt32.toNat_ofNat_of_lt' (by rw [UInt32.size]; omega)]
      omega

/-- A data record keeps the books, however many ranges it is added in. The ranges of a payload are
together the payload. -/
theorem pieces_accounted (field : u16) (payload : List u8)
    (account : Accounted heap hexFile nodes held)
    (short : payload.length ≤ 251) (room : payload.length + Multiset.card held < 2 ^ 32) :
    storeAll heap hexFile (pieces hexFile field payload) = .ok (false, heap, hexFile) ∨
    ∃ changed relinked after,
      storeAll heap hexFile (pieces hexFile field payload) = .ok (true, changed, relinked) ∧
      Accounted changed relinked after (payload + held) := by
  have atomic := fun changed relinked =>
    pieces_atomic heap changed hexFile relinked nodes field payload account.owns account.generous
      short
  simp only [pieces] at atomic ⊢
  split_ifs at atomic ⊢ with crossing
  · generalize 2 ^ 32 - (hexFile.addressBase.toNat + field.toNat) = split at atomic ⊢
    have parts : ((payload.take split : List u8) : Multiset u8) + (payload.drop split : List u8) =
        payload := by
      rw [Multiset.coe_add, List.take_append_drop]
    have sizes := congrArg Multiset.card parts
    rw [Multiset.card_add, Multiset.coe_card, Multiset.coe_card, Multiset.coe_card] at sizes
    rcases range_accounted heap hexFile nodes held 0 (payload.drop split) account (by omega) with
      refused | ⟨middle, between, stored, result, low⟩
    · exact Or.inl (by rw [storeAll, refused]; rfl)
    · have following : storeAll heap hexFile [(0, payload.drop split),
          (dataAddress hexFile field, payload.take split)] =
          storeBytes middle between (dataAddress hexFile field) (payload.take split) := by
        rw [storeAll, result, ← store_all_single]
        rfl
      rcases range_accounted middle between stored _ (dataAddress hexFile field)
          (payload.take split)
        low (by rw [Multiset.card_add, Multiset.coe_card]; omega) with
        refused | ⟨changed, relinked, after, accepted, high⟩
      · obtain ⟨same, fields⟩ := atomic middle between (following.trans refused)
        exact Or.inl (by rw [following, refused, same, fields])
      · refine Or.inr ⟨changed, relinked, after, following.trans accepted, ?_⟩
        rw [← parts, add_assoc]
        exact high
  · rw [store_all_single]
    rcases range_accounted heap hexFile nodes held (dataAddress hexFile field) payload account
      room with
      refused | ⟨changed, relinked, after, accepted, kept⟩
    · exact Or.inl refused
    · exact Or.inr ⟨changed, relinked, after, accepted, kept⟩

end Steps

/-! ## Runs of calls -/

/-- The payload an accepted data record adds in linear mode. Everything else takes nothing. -/
def takenPayload (hexFile : IntelHexFormat) (line : List u8) (data : LocalBuffer)
    (accepted : Bool) : List u8 :=
  if accepted = true ∧ IsRecord line ∧ (recordArray line data).getD 3 0 = 0 ∧
      hexFile.fileMode = .linear then payloadOf (recordArray line data)
  else []

/-- Successive calls of `ParseOneLine`, whatever they return, and the payloads of the data
records that were accepted in linear mode. -/
def parseCalls (heap : Heap Block) (hexFile : IntelHexFormat) (held : Multiset u8) :
    List (List u8 × LocalBuffer) → Run (Heap Block × IntelHexFormat × Multiset u8)
  | [] => .ok (heap, hexFile, held)
  | (line, data) :: rest => do
    let (accepted, changed, relinked) ← parseOneLine heap hexFile line data
    parseCalls changed relinked (takenPayload hexFile line data accepted + held) rest

/-- The number of data bytes a line carries, if its text passes the checks. It bounds what the
line can add in any state. -/
def carriedBytes (call : List u8 × LocalBuffer) : Nat :=
  if IsRecord call.1 ∧ TextChecks call.2 (recordText call.1) ∧
      (recordArray call.1 call.2).getD 3 0 = 0 then
    (payloadOf (recordArray call.1 call.2)).length
  else 0

/-- One call returns and keeps the books, if the bytes it carries still fit. Proof: by the type of
the record; only data records in linear mode reach `AddBlock`. -/
theorem line_accounted (heap : Heap Block) (hexFile : IntelHexFormat) (nodes : List BlockNode)
    (held : Multiset u8) (line : List u8) (data : LocalBuffer)
    (account : Accounted heap hexFile nodes held)
    (room : carriedBytes (line, data) + Multiset.card held < 2 ^ 32) :
    ∃ accepted changed relinked after,
      parseOneLine heap hexFile line data = .ok (accepted, changed, relinked) ∧
      (takenPayload hexFile line data accepted).length ≤ carriedBytes (line, data) ∧
      Accounted changed relinked after (takenPayload hexFile line data accepted + held) := by
  have idle : ∀ accepted, takenPayload hexFile line data accepted = [] →
      (takenPayload hexFile line data accepted).length ≤ carriedBytes (line, data) ∧
      Accounted heap hexFile nodes (takenPayload hexFile line data accepted + held) := by
    intro accepted nothing
    rw [nothing, Multiset.coe_nil, zero_add]
    exact ⟨Nat.zero_le _, account⟩
  rw [parse_record]
  split_ifs with record checks
  · rw [CheckedRecord.process]
    split_ifs with kind mode
    · have carried : carriedBytes (line, data) =
          (recordOf (recordArray line data)).payload.length := if_pos ⟨record, checks, kind⟩
      rcases pieces_accounted heap hexFile nodes held _ _ account (checked_short line data checks)
        (carried ▸ room) with refused | ⟨changed, relinked, after, accepted, kept⟩
      · exact ⟨false, heap, hexFile, nodes, refused, idle false (by simp [takenPayload])⟩
      · have taken : takenPayload hexFile line data true =
            (recordOf (recordArray line data)).payload := if_pos ⟨rfl, record, kind, mode⟩
        refine ⟨true, changed, relinked, after, accepted, ?_, taken ▸ kept⟩
        rw [taken, carried]
    · exact ⟨true, heap, hexFile, nodes, rfl, idle true (if_neg fun all => mode all.2.2.2)⟩
    · cases updates : (recordOf (recordArray line data)).update hexFile with
      | none => exact ⟨false, heap, hexFile, nodes, rfl, idle false (by simp [takenPayload])⟩
      | some update =>
        obtain ⟨head, tail, total⟩ := update_list _ hexFile update updates
        have nothing : takenPayload hexFile line data true = [] := if_neg fun all => kind all.2.2.1
        refine ⟨true, heap, update, nodes, rfl, nothing ▸ Nat.zero_le _,
          owns_congr heap hexFile update nodes account.owns head tail, account.generous, ?_, ?_⟩
        · rw [nothing, Multiset.coe_nil, zero_add, account.bytes]
        · rw [nothing, Multiset.coe_nil, zero_add, total, account.total]
  · exact ⟨false, heap, hexFile, nodes, rfl, idle false (by simp [takenPayload])⟩
  · exact ⟨true, heap, hexFile, nodes, rfl, idle true (if_neg fun all => record all.2.1)⟩

/-- A run of calls returns and keeps the books. What a call adds to the ledger it has
carried, so the bytes still to come and those already held never exceed the bound. -/
theorem calls_accounted (heap : Heap Block) (hexFile : IntelHexFormat) (nodes : List BlockNode)
    (held : Multiset u8) (lines : List (List u8 × LocalBuffer))
    (account : Accounted heap hexFile nodes held)
    (room : (lines.map carriedBytes).sum + Multiset.card held < 2 ^ 32) :
    ∃ changed relinked after kept, parseCalls heap hexFile held lines =
        .ok (changed, relinked, kept) ∧ Accounted changed relinked after kept := by
  induction lines generalizing heap hexFile nodes held with
  | nil => exact ⟨heap, hexFile, nodes, held, rfl, account⟩
  | cons call rest inductionHypothesis =>
    obtain ⟨line, data⟩ := call
    rw [List.map_cons, List.sum_cons] at room
    obtain ⟨accepted, changed, relinked, after, parsed, few, kept⟩ :=
      line_accounted heap hexFile nodes held line data account (by omega)
    rw [parseCalls, parsed]
    refine inductionHypothesis changed relinked after _ kept ?_
    rw [Multiset.card_add, Multiset.coe_card]
    omega

/-- The books of the loaded data: both list pointers are null or the second names the last
node of a finite list, the total is the sum of the lengths, every block has as many bytes
as its length says, and the bytes in all blocks are those that were accepted. -/
structure Conserved (heap : Heap Block) (hexFile : IntelHexFormat) (accepted : Multiset u8) :
    Prop where
  ends : hexFile.blockHead = none ↔ hexFile.blockTail = none
  list : ∃ nodes, Chain heap hexFile.blockHead nodes none ∧
    hexFile.blockTail = nodes.getLast?.map Prod.fst ∧
    (∀ block ∈ values nodes, block.data.length = block.length.toNat) ∧
    hexFile.totalLength.toNat = ((values nodes).map fun block => block.length.toNat).sum ∧
    storedBytes (values nodes) = accepted

/-- From the fresh state, with every request granted, each call of a run returns as long as the
lines carry less than 2^32 bytes, and the books are right after each of them. Proof: by induction
on the lines, since an accepted range is added once and a refused one not at all. -/
theorem loading_conserves (heap : Heap Block) (generous : heap.Generous)
    (lines : List (List u8 × LocalBuffer)) (few : (lines.map carriedBytes).sum < 2 ^ 32)
    (called : List (List u8 × LocalBuffer)) (front : called <+: lines) :
    ∃ changed relinked accepted,
      parseCalls heap .fresh 0 called = .ok (changed, relinked, accepted) ∧
      Conserved changed relinked accepted := by
  obtain ⟨rest, rfl⟩ := front
  rw [List.map_append, List.sum_append] at few
  obtain ⟨changed, relinked, nodes, accepted, parsed, kept⟩ :=
    calls_accounted heap .fresh [] 0 called ⟨owns_nothing heap .fresh rfl rfl, generous, rfl, rfl⟩
      (by rw [Multiset.card_zero]; omega)
  refine ⟨changed, relinked, accepted, parsed, ?_, nodes, kept.owns.chain, kept.owns.tail,
    kept.owns.sized, ?_, kept.bytes⟩
  · rw [chain_first changed _ _ kept.owns.chain, kept.owns.tail]
    simp
  · rw [lengths_counted _ kept.owns.sized, kept.bytes, kept.total]

set_option maxRecDepth 8000 in
/-- A record of two bytes at 16, and one at 17 that is refused. Two bytes are stored and
counted. -/
theorem two_calls_conserved :
    ∃ changed relinked accepted,
      parseCalls ⟨[], fun _ => true⟩ .fresh 0
        [(":020010000102EB\n".toList.map code, .zero), (":0100110003EB\n".toList.map code, .zero)] =
        .ok (changed, relinked, accepted) ∧
      Conserved changed relinked accepted :=
  loading_conserves ⟨[], fun _ => true⟩ (fun _ => rfl)
    [(":020010000102EB\n".toList.map code, .zero), (":0100110003EB\n".toList.map code, .zero)]
    (by decide +kernel) _ (List.prefix_refl _)

end EffiLib.IntelHex
