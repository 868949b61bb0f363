import EffiLib.IntelHex.AddBlock

/-!
# Adding bytes when allocations fail

`AddBlock` asks for memory at three places: `realloc` on the route that extends a block,
and two calls of `malloc` on the route that links a new one. All three failures jump to
one label, which releases `new_block->Data` and `new_block`. Only behind the second
`malloc` does `new_block` point to anything.

With the requests that a call makes granted, it does what it does on a heap that grants
everything. So each outcome of a call is one of five.
-/

namespace EffiLib.IntelHex

open Buffers LinkedHeap Segments

/-- The result of a call with other outcomes of the requests still to come. Nothing else of the
result depends on them. -/
def regranted (grants : Nat → Bool) (result : Bool × Heap Block × IntelHexFormat) :
    Bool × Heap Block × IntelHexFormat :=
  (result.1, result.2.1.regrant grants, result.2.2)

section Grants

variable (heap : Heap Block) (hexFile : IntelHexFormat)

/-- The position is found without asking for memory. It is read off the list as it stands. -/
theorem find_regrant (grants : Nat → Bool) (address : u32) :
    findPosition (heap.regrant grants) hexFile address = findPosition heap hexFile address := by
  unfold findPosition
  cases hexFile.blockTail with
  | none => rfl
  | some tail => simp only [Heap.read_regrant, Heap.regrant_cells, walk_regrant]

/-- The overlap test asks for no memory. It compares with the neighbour that was found. -/
theorem overlaps_regrant (grants : Nat → Bool) (addAfter : Option Nat) (address dataLen : u32) :
    overlaps (heap.regrant grants) hexFile addAfter address dataLen =
      overlaps heap hexFile addAfter address dataLen := by
  unfold overlaps
  simp only [Heap.read_regrant]

/-- Moving the tail asks for no memory, so the answers of later requests do not matter to it. The
tail pointer follows the list to its end. -/
theorem advance_regrant (grants : Nat → Bool) :
    advanceTail (heap.regrant grants) hexFile = advanceTail heap hexFile := by
  simp only [advanceTail, Heap.regrant_cells, walk_regrant]

/-- Linking a block does not ask for memory either. The node was allocated by then. -/
theorem link_regrant (grants : Nat → Bool) (addAfter : Option Nat) (block : Block) :
    linkBlock (heap.regrant grants) hexFile addAfter block =
      (linkBlock heap hexFile addAfter block).map fun linked =>
        (linked.1.regrant grants, linked.2) := by
  unfold linkBlock
  cases hexFile.blockHead with
  | none => rfl
  | some head =>
    cases addAfter with
    | none => rfl
    | some position =>
      simp only [Heap.read_regrant]
      cases heap.read (some position) with
      | error fault => rfl
      | ok node =>
        have made : ∀ added : Node Block, (heap.regrant grants).create added =
            ((heap.create added).1, (heap.create added).2.regrant grants) := fun _ => rfl
        simp only [ok_bind, made, Heap.write_regrant]
        cases (heap.create ⟨block, node.next⟩).2.write (some position) _ <;> rfl

/-- An extension whose request is granted is the one on a heap that grants everything. It asks
once, for the longer array. -/
theorem append_regrant (pointer : Nat) (data : List u8) (dataLen : u32)
    (granted : heap.grants 0 = true) :
    appendToBlock heap hexFile pointer data dataLen =
      (appendToBlock heap.plenty hexFile pointer data dataLen).map
        (regranted heap.request.2.grants) := by
  have whole : heap.request = (true, (heap.plenty.request.2).regrant heap.request.2.grants) := by
    rw [← granted]
    rfl
  have plenty : heap.plenty.request = (true, heap.plenty.request.2) := rfl
  have read : heap.plenty.read (some pointer) = heap.read (some pointer) := heap.read_regrant _ _
  simp only [appendToBlock, read]
  cases heap.read (some pointer) with
  | error fault => rfl
  | ok node =>
    simp only [ok_bind]
    rw [whole, plenty]
    simp only [if_true]
    cases copy (resize node.value.data (node.value.length + dataLen).toNat 0)
        node.value.length.toNat data dataLen.toNat with
    | error fault => rfl
    | ok filled =>
      simp only [ok_bind, Heap.write_regrant]
      cases (heap.plenty.request.2).write (some pointer) _ <;> rfl

/-- An insertion whose two requests are granted is the one on a heap that grants everything. It
asks twice, for the node and for its data. -/
theorem insert_regrant (addAfter : Option Nat) (address : u32) (data : List u8) (dataLen : u32)
    (clear : overlaps heap hexFile addAfter address dataLen = .ok false)
    (first : heap.grants 0 = true) (second : heap.grants 1 = true) :
    insertBlock heap hexFile addAfter address data dataLen =
      (insertBlock heap.plenty hexFile addAfter address data dataLen).map
        (regranted heap.request.2.request.2.grants) := by
  have granted : heap.request = (true, heap.request.2) := by
    rw [← first]
    rfl
  have again : heap.request.2.request =
      (true, (heap.plenty.request.2.request.2).regrant heap.request.2.request.2.grants) := by
    rw [← second]
    rfl
  have plenty : heap.plenty.request = (true, heap.plenty.request.2) := rfl
  have more : heap.plenty.request.2.request = (true, heap.plenty.request.2.request.2) := rfl
  have clearPlenty : overlaps heap.plenty hexFile addAfter address dataLen = .ok false :=
    (overlaps_regrant heap hexFile _ addAfter address dataLen).trans clear
  simp only [insertBlock, clear, clearPlenty, ok_bind, Bool.false_eq_true, if_false]
  rw [granted, plenty]
  simp only [if_true]
  rw [again, more]
  simp only [if_true]
  cases copy (List.replicate dataLen.toNat 0) 0 data dataLen.toNat with
  | error fault => rfl
  | ok filled =>
    simp only [ok_bind, link_regrant]
    cases linkBlock heap.plenty.request.2.request.2 hexFile addAfter ⟨address, dataLen, filled⟩ with
    | error fault => rfl
    | ok linked =>
      simp only [Except.map, ok_bind, advance_regrant]
      cases advanceTail linked.1 linked.2 <;> rfl

/-- An extension that returns is accepted. A denied request faults there. -/
theorem append_accepts (pointer : Nat) (data : List u8) (dataLen : u32)
    (result : Bool × Heap Block × IntelHexFormat)
    (returned : appendToBlock heap hexFile pointer data dataLen = .ok result) :
    result.1 = true := by
  obtain ⟨node, _, following⟩ := (bind_ok_iff _ _ _).mp returned
  by_cases granted : heap.request.1 = true
  · rw [heap.request_answer true granted] at following
    simp only [if_true] at following
    obtain ⟨filled, _, writing⟩ := (bind_ok_iff _ _ _).mp following
    obtain ⟨changed, _, last⟩ := (bind_ok_iff _ _ _).mp writing
    rw [← Except.ok.inj last]
  · rw [heap.request_answer false (Bool.eq_false_of_not_eq_true granted)] at following
    simp at following

/-- An insertion that passed its test and got its memory is accepted. Nothing is left that could
refuse it. -/
theorem insert_accepts (addAfter : Option Nat) (address : u32) (data : List u8) (dataLen : u32)
    (result : Bool × Heap Block × IntelHexFormat)
    (clear : overlaps heap hexFile addAfter address dataLen = .ok false)
    (generous : heap.Generous)
    (returned : insertBlock heap hexFile addAfter address data dataLen = .ok result) :
    result.1 = true := by
  simp only [insertBlock, clear, ok_bind, Bool.false_eq_true, if_false] at returned
  rw [heap.request_answer true (generous 0)] at returned
  simp only [if_true] at returned
  rw [heap.request.2.request_answer true (generous 1)] at returned
  simp only [if_true] at returned
  obtain ⟨filled, _, linking⟩ := (bind_ok_iff _ _ _).mp returned
  obtain ⟨linked, _, advancing⟩ := (bind_ok_iff _ _ _).mp linking
  obtain ⟨advanced, _, last⟩ := (bind_ok_iff _ _ _).mp advancing
  rw [← Except.ok.inj last]

end Grants

/-! ## The five outcomes -/

section Outcomes

variable (heap : Heap Block) (hexFile : IntelHexFormat) (nodes : List BlockNode) (address : u32)

/-- The overlap test refuses the call, before any memory is asked for. The search found a place to
insert, and a neighbour reaches into the range. -/
def Refuses (dataLen : u32) : Prop :=
  ∃ addAfter, findPosition heap hexFile address = .ok (none, addAfter) ∧
    overlaps heap hexFile addAfter address dataLen = .ok true

/-- One of the requests that the call makes is denied. Which requests are made depends on the
route. -/
def AllocationFails (dataLen : u32) : Prop :=
  (∃ pointer candidate, findPosition heap hexFile address = .ok (some pointer, candidate) ∧
    heap.grants 0 = false) ∨
  ∃ addAfter, findPosition heap hexFile address = .ok (none, addAfter) ∧
    overlaps heap hexFile addAfter address dataLen = .ok false ∧
      (heap.grants 0 = false ∨ heap.grants 1 = false)

/-- What a call can come to, on a heap that may deny requests. Two of them are failures of the
source: a fault at the label, and a return in which nothing was stored. -/
inductive Outcomes (data : List u8) (dataLen : u32) :
    Run (Bool × Heap Block × IntelHexFormat) → Prop
  | refused (refuses : Refuses heap hexFile address dataLen) :
      Outcomes data dataLen (.ok (false, heap, hexFile))
  | unallocated (clear : ¬ Refuses heap hexFile address dataLen) (denied : heap.grants 0 = false) :
      Outcomes data dataLen (.error .nullPointer)
  | released (failing : AllocationFails heap hexFile address dataLen)
      (granted : heap.grants 0 = true) :
      Outcomes data dataLen (.ok (false, heap.request.2.request.2, hexFile))
  | overflow (clear : ¬ Refuses heap hexFile address dataLen) (granted : heap.grants 0 = true)
      (served : ¬ AllocationFails heap hexFile address dataLen)
      (overflows : Overflows (values nodes) address dataLen.toNat) :
      Outcomes data dataLen (.error .outOfBounds)
  | stored (clear : ¬ Refuses heap hexFile address dataLen) (granted : heap.grants 0 = true)
      (served : ¬ AllocationFails heap hexFile address dataLen) (changed : Heap Block)
      (relinked : IntelHexFormat) (after : List BlockNode) (owns : Owns changed relinked after)
      (route : Route address (data.take dataLen.toNat) (values nodes) true (values after))
      (header : SameHeader hexFile relinked) :
      Outcomes data dataLen (.ok (true, changed, relinked))

/-- The overlap test never faults on an owned list. The neighbours it looks at are nodes of the
list. -/
theorem overlaps_defined (dataLen : u32) (addAfter : Option Nat)
    (owns : Owns heap hexFile nodes) (placed : Position address nodes (none, addAfter)) :
    ∃ overlapped, overlaps heap hexFile addAfter address dataLen = .ok overlapped := by
  cases placed with
  | empty =>
    have null : hexFile.blockHead = none := owns.chain
    exact ⟨false, by simp [overlaps, null]⟩
  | behind front pointer block behind =>
    obtain ⟨_, found⟩ := tail_node heap hexFile front pointer block owns
    exact ⟨false, by simp [overlaps, heap.read_stored pointer _ found]⟩
  | between front pointer block late back untouched behind ahead =>
    obtain ⟨latePointer, lateBlock⟩ := late
    obtain ⟨next, found, _, ⟨rfl, further, lateFound, _⟩, _, _⟩ :=
      chain_split heap _ _ _ _ _ owns.chain
    exact ⟨decide (lateBlock.address < address + dataLen), by
      simp [overlaps, heap.read_stored pointer _ found, heap.read_stored latePointer _ lateFound]⟩
  | before head rest ahead =>
    obtain ⟨headPointer, headBlock⟩ := head
    obtain ⟨atHead, next, found, _⟩ := owns.chain
    exact ⟨decide (headBlock.address < address), by
      simp [overlaps, atHead, heap.read_stored headPointer _ found]⟩

/-- The block to extend is a stored node. It is a node of the list. -/
theorem position_stored (pointer : Nat) (candidate : Option Nat)
    (owns : Owns heap hexFile nodes) (placed : Position address nodes (some pointer, candidate)) :
    ∃ node, heap.read (some pointer) = .ok node := by
  cases placed with
  | tail front pointer block touching =>
    obtain ⟨_, found⟩ := tail_node heap hexFile front pointer block owns
    exact ⟨_, heap.read_stored pointer _ found⟩
  | inner front pointer block back last candidate inner earlier touching =>
    obtain ⟨next, found, _⟩ := chain_split heap _ _ _ _ _ owns.chain
    exact ⟨_, heap.read_stored pointer _ found⟩

/-- If its request is denied, the jump to the label reads through `new_block`, which is
null. -/
theorem append_denied (pointer : Nat) (node : Node Block) (data : List u8) (dataLen : u32)
    (read : heap.read (some pointer) = .ok node) (denied : heap.grants 0 = false) :
    appendToBlock heap hexFile pointer data dataLen = .error .nullPointer := by
  simp only [appendToBlock, read, ok_bind]
  rw [heap.request_answer false denied]
  rfl

/-- A denied request for the new block faults in an insertion as well. Behind the label the source
frees the data through the null pointer. -/
theorem insert_denied (addAfter : Option Nat) (data : List u8) (dataLen : u32)
    (clear : overlaps heap hexFile addAfter address dataLen = .ok false)
    (denied : heap.grants 0 = false) :
    insertBlock heap hexFile addAfter address data dataLen = .error .nullPointer := by
  simp only [insertBlock, clear, ok_bind, Bool.false_eq_true, if_false]
  rw [heap.request_answer false denied]
  rfl

/-- A denied request for the data releases the new block again. The call returns `FALSE`, and the
list is as before. -/
theorem insert_released (addAfter : Option Nat) (data : List u8) (dataLen : u32)
    (clear : overlaps heap hexFile addAfter address dataLen = .ok false)
    (granted : heap.grants 0 = true) (denied : heap.grants 1 = false) :
    insertBlock heap hexFile addAfter address data dataLen =
      .ok (false, heap.request.2.request.2, hexFile) := by
  simp only [insertBlock, clear, ok_bind, Bool.false_eq_true, if_false]
  rw [heap.request_answer true granted]
  simp only [if_true]
  rw [heap.request.2.request_answer false denied]
  rfl

/-- A call whose requests are granted has the outcome it has on a heap that grants everything.
What holds on such a heap is thereby used again. -/
theorem granted_outcome (data : List u8) (dataLen : u32) (grants : Nat → Bool)
    (owns : Owns heap hexFile nodes) (enough : dataLen.toNat ≤ data.length)
    (clear : ¬ Refuses heap hexFile address dataLen) (granted : heap.grants 0 = true)
    (served : ¬ AllocationFails heap hexFile address dataLen)
    (accepts : ∀ result, addBlock heap.plenty hexFile address data dataLen = .ok result →
      result.1 = true)
    (same : addBlock heap hexFile address data dataLen =
      (addBlock heap.plenty hexFile address data dataLen).map (regranted grants)) :
    Outcomes heap hexFile nodes address data dataLen
      (addBlock heap hexFile address data dataLen) := by
  have ownsPlenty : Owns heap.plenty hexFile nodes :=
    owns_cells heap heap.plenty hexFile nodes owns rfl
  rcases add_block_cases heap.plenty hexFile nodes address data dataLen ownsPlenty
    heap.plenty_generous enough with ⟨result, overflows⟩ |
    ⟨accepted, changed, relinked, after, result, added⟩
  · rw [same, result]
    exact .overflow clear granted served overflows
  · obtain rfl : accepted = true := accepts _ result
    have ownsAfter : Owns (changed.regrant grants) relinked after :=
      owns_cells changed _ relinked after added.owns rfl
    rw [same, result]
    exact .stored clear granted served _ relinked after ownsAfter added.route added.header

/-- Every call on an owned list has one of the five outcomes. Proof: the position found decides
the route, and on each route the requests are granted or denied in order. -/
theorem add_block_outcomes (data : List u8) (dataLen : u32) (owns : Owns heap hexFile nodes)
    (enough : dataLen.toNat ≤ data.length) :
    Outcomes heap hexFile nodes address data dataLen
      (addBlock heap hexFile address data dataLen) := by
  obtain ⟨⟨appendBlock, addAfter⟩, position, placed⟩ :=
    find_position heap hexFile nodes address owns
  have plentyPosition : findPosition heap.plenty hexFile address = .ok (appendBlock, addAfter) :=
    (find_regrant heap hexFile _ address).trans position
  cases appendBlock with
  | some pointer =>
    have clear : ¬ Refuses heap hexFile address dataLen := by
      rintro ⟨other, elsewhere, _⟩
      simp [position] at elsewhere
    have call : addBlock heap hexFile address data dataLen =
        appendToBlock heap hexFile pointer data dataLen := by simp [addBlock, position]
    have plentyCall : addBlock heap.plenty hexFile address data dataLen =
        appendToBlock heap.plenty hexFile pointer data dataLen := by simp [addBlock, plentyPosition]
    by_cases granted : heap.grants 0 = true
    · refine granted_outcome heap hexFile nodes address data dataLen heap.request.2.grants owns
        enough clear granted ?_ ?_ ?_
      · rintro (⟨_, _, _, denied⟩ | ⟨other, elsewhere, _⟩)
        · simp [granted] at denied
        · simp [position] at elsewhere
      · intro result returned
        exact append_accepts heap.plenty hexFile pointer data dataLen result
          (plentyCall.symm.trans returned)
      · rw [call, plentyCall]
        exact append_regrant heap hexFile pointer data dataLen granted
    · have denied := Bool.eq_false_of_not_eq_true granted
      obtain ⟨node, read⟩ := position_stored heap hexFile nodes address pointer addAfter owns placed
      rw [call, append_denied heap hexFile pointer node data dataLen read denied]
      exact .unallocated clear denied
  | none =>
    have call : addBlock heap hexFile address data dataLen =
        insertBlock heap hexFile addAfter address data dataLen := by simp [addBlock, position]
    have plentyCall : addBlock heap.plenty hexFile address data dataLen =
        insertBlock heap.plenty hexFile addAfter address data dataLen := by
      simp [addBlock, plentyPosition]
    obtain ⟨overlapped, tested⟩ :=
      overlaps_defined heap hexFile nodes address dataLen addAfter owns placed
    cases overlapped with
    | true =>
      rw [call, insert_refused heap hexFile addAfter address data dataLen tested]
      exact .refused ⟨addAfter, position, tested⟩
    | false =>
      have clear : ¬ Refuses heap hexFile address dataLen := by
        rintro ⟨other, found, overlapped⟩
        obtain rfl : addAfter = other := by simpa [position] using found
        simp [tested] at overlapped
      by_cases granted : heap.grants 0 = true
      · by_cases again : heap.grants 1 = true
        · refine granted_outcome heap hexFile nodes address data dataLen
            heap.request.2.request.2.grants owns enough clear granted ?_ ?_ ?_
          · rintro (⟨pointer, _, elsewhere, _⟩ | ⟨_, _, _, denied⟩)
            · simp [position] at elsewhere
            · simp [granted, again] at denied
          · intro result returned
            exact insert_accepts heap.plenty hexFile addAfter address data dataLen result
              ((overlaps_regrant heap hexFile _ addAfter address dataLen).trans tested)
              heap.plenty_generous (plentyCall.symm.trans returned)
          · rw [call, plentyCall]
            exact insert_regrant heap hexFile addAfter address data dataLen tested granted again
        · have denied := Bool.eq_false_of_not_eq_true again
          rw [call,
            insert_released heap hexFile address addAfter data dataLen tested granted denied]
          exact .released (Or.inr ⟨addAfter, position, tested, Or.inr denied⟩) granted
      · have denied := Bool.eq_false_of_not_eq_true granted
        rw [call, insert_denied heap hexFile address addAfter data dataLen tested denied]
        exact .unallocated clear denied

/-- What a call owes when memory runs out: no null pointer is followed, and if a request
was denied the call returns `FALSE` with the structure and every node as before. -/
def Survives (data : List u8) (dataLen : u32) : Prop :=
  addBlock heap hexFile address data dataLen ≠ .error .nullPointer ∧
    (AllocationFails heap hexFile address dataLen →
      ∃ changed, addBlock heap hexFile address data dataLen = .ok (false, changed, hexFile) ∧
        changed.cells = heap.cells)

/-- A call survives exactly when it is refused as an overlap or its first request is granted. The
first request is the `realloc` or the first `malloc`, whose failure leaves `new_block` null. -/
theorem survives_exactly (data : List u8) (dataLen : u32) (owns : Owns heap hexFile nodes)
    (enough : dataLen.toNat ≤ data.length) :
    Survives heap hexFile address data dataLen ↔
      Refuses heap hexFile address dataLen ∨ heap.grants 0 = true := by
  have outcome := add_block_outcomes heap hexFile nodes address data dataLen owns enough
  unfold Survives
  generalize addBlock heap hexFile address data dataLen = result at outcome ⊢
  cases outcome with
  | refused refuses =>
    exact ⟨fun _ => Or.inl refuses, fun _ => ⟨by simp, fun _ => ⟨heap, rfl, rfl⟩⟩⟩
  | unallocated clear denied => simp [clear, denied]
  | released failing granted =>
    exact ⟨fun _ => Or.inr granted, fun _ => ⟨by simp, fun _ => ⟨_, rfl, rfl⟩⟩⟩
  | overflow clear granted served overflows =>
    exact ⟨fun _ => Or.inr granted, fun _ => ⟨by simp, fun failing => absurd failing served⟩⟩
  | stored clear granted served changed relinked after owns route header =>
    exact ⟨fun _ => Or.inr granted, fun _ => ⟨by simp, fun failing => absurd failing served⟩⟩

end Outcomes

/-- With the first request granted and the second denied the call returns `FALSE`. The call gives
the block itself back before it returns. -/
theorem data_denied_survives :
    Survives ⟨[], fun later => decide (later = 0)⟩ .zero 16 [1, 2] 2 :=
  (survives_exactly ⟨[], fun later => decide (later = 0)⟩ .zero [] 16 [1, 2] 2
    (owns_nothing _ _ rfl rfl) (by decide)).mpr (Or.inr rfl)

/-- The first request denied on an empty list: the label reads `new_block->Data` with
`new_block` null. -/
theorem block_denied_faults :
    Owns ⟨[], fun _ => false⟩ .zero [] ∧
    ¬ Survives ⟨[], fun _ => false⟩ .zero 16 [1, 2] 2 :=
  ⟨owns_nothing _ _ rfl rfl, fun survives => survives.1 rfl⟩

end EffiLib.IntelHex
