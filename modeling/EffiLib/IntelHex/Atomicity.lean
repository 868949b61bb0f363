import EffiLib.IntelHex.RecordEffects

/-!
# Refused lines

A data record across 2^32 is added in two calls of `AddBlock` with an update of
`TotalLength` between them. The first call, at address 0, leaves a block whose machine
end is the number of bytes it added, whatever else is in the list. The second call adds
bytes up to 2^32 at an address above that end. Its own end wraps to 0, which exceeds no
address, and its address is not below every machine end. So neither overlap test can
refuse it, and a line is refused before anything has changed or not at all.
-/

namespace EffiLib.IntelHex

open Buffers LinkedHeap Segments

/-- Behind an accepted call at address 0, some block's machine end is the number of
bytes that were added. -/
theorem route_at_zero (bytes : List u8) (blocks after : List Block)
    (route : Route 0 bytes blocks true after) :
    ∃ block ∈ after, block.wrappedEnd = UInt32.ofNat bytes.length := by
  have fresh : (Block.fresh 0 bytes).wrappedEnd = UInt32.ofNat bytes.length := UInt32.zero_add _
  have extended : ∀ block : Block, block.wrappedEnd = 0 →
      (block.extend bytes).wrappedEnd = UInt32.ofNat bytes.length := by
    intro block touching
    have moved : (block.extend bytes).wrappedEnd =
        block.wrappedEnd + UInt32.ofNat bytes.length := (UInt32.add_assoc _ _ _).symm
    rw [moved, touching, UInt32.zero_add]
  have positive : ∀ value : u32, ¬ value < 0 := fun value below =>
    absurd (UInt32.lt_iff_toNat_lt.mp below) (Nat.not_lt_zero _)
  cases route with
  | first => exact ⟨_, by simp, fresh⟩
  | appendTail front tail touching => exact ⟨_, by simp, extended tail touching⟩
  | afterTail front tail behind => exact absurd behind (positive _)
  | appendInner front block back tail inner earlier touching =>
    exact ⟨_, by simp, extended block touching⟩
  | between front early late back untouched behind ahead clear =>
    exact absurd behind (positive _)
  | before head rest ahead clear => exact ⟨_, by simp, fresh⟩

/-- A range that ends exactly at 2^32 is not refused if some block's machine end is at
or below its start. -/
theorem route_at_top (address : u32) (bytes : List u8) (blocks after : List Block)
    (accepted : Bool) (route : Route address bytes blocks accepted after)
    (top : address.toNat + bytes.length = 2 ^ 32) (block : Block) (member : block ∈ blocks)
    (low : ¬ address < block.wrappedEnd) : accepted = true := by
  cases route with
  | first => rfl
  | appendTail => rfl
  | afterTail => rfl
  | appendInner => rfl
  | between => rfl
  | before => rfl
  | refuseNext front early late back untouched behind ahead overlapped =>
    have ends : address + UInt32.ofNat bytes.length = 0 := by
      rw [← UInt32.toNat_inj, UInt32.toNat_add, UInt32.toNat_ofNat']
      simp only [UInt32.reduceToNat]
      omega
    rw [ends] at overlapped
    exact absurd (UInt32.lt_iff_toNat_lt.mp overlapped) (Nat.not_lt_zero _)
  | refuseHead head rest ahead overlapped => exact absurd (ahead block member) low

section Refused

variable (heap changed : Heap Block) (hexFile relinked : IntelHexFormat) (nodes : List BlockNode)

/-- The ranges of a data record are refused at the first one or not at all. The second range of
two is never refused, by the wrapped ends alone. -/
theorem pieces_atomic (field : u16) (payload : List u8) (owns : Owns heap hexFile nodes)
    (generous : heap.Generous) (short : payload.length ≤ 251)
    (returned : storeAll heap hexFile (pieces hexFile field payload) =
      .ok (false, changed, relinked)) : changed = heap ∧ relinked = hexFile := by
  simp only [pieces] at returned
  split_ifs at returned with crossing
  · generalize distance : 2 ^ 32 - (hexFile.addressBase.toNat + field.toNat) = split at returned
    have size : (payload.drop split).length = payload.length - split := List.length_drop
    rw [storeAll] at returned
    rcases store_generous heap hexFile nodes 0 (payload.drop split) owns generous (by omega) with
      ⟨fault, _⟩ | ⟨refused, _⟩ | ⟨middle, between, stored, result, low, stillGenerous⟩
    · simp [fault] at returned
    · obtain ⟨rfl, rfl⟩ : heap = changed ∧ hexFile = relinked := by simpa [refused] using returned
      exact ⟨rfl, rfl⟩
    · simp only [result, ok_bind, if_true, store_all_single] at returned
      have top : (dataAddress hexFile field).toNat + (payload.take split).length = 2 ^ 32 := by
        rw [data_address, List.length_take]
        omega
      obtain ⟨block, member, ends⟩ := route_at_zero _ _ _ low.route
      have behind : ¬ dataAddress hexFile field < block.wrappedEnd := by
        rw [UInt32.lt_iff_toNat_lt, ends, UInt32.toNat_ofNat_of_lt' (by rw [UInt32.size]; omega)]
        rw [List.length_take] at top
        omega
      rcases store_generous middle between stored (dataAddress hexFile field) (payload.take split)
        low.owns stillGenerous (by rw [List.length_take]; omega) with
        ⟨fault, _⟩ | ⟨_, refused⟩ | ⟨others, following, after, accepted, _⟩
      · simp [fault] at returned
      · have accepted := route_at_top _ _ _ _ _ refused top block member behind
        exact absurd accepted (by simp)
      · simp [accepted] at returned
  · rw [store_all_single] at returned
    rcases store_generous heap hexFile nodes (dataAddress hexFile field) payload owns generous
      (by omega) with ⟨fault, _⟩ | ⟨refused, _⟩ | ⟨others, following, after, accepted, _⟩
    · simp [fault] at returned
    · obtain ⟨rfl, rfl⟩ : heap = changed ∧ hexFile = relinked := by simpa [refused] using returned
      exact ⟨rfl, rfl⟩
    · simp [accepted] at returned

/-- In every reachable state, with every request granted, a line that is refused leaves the list,
its bytes and all fields exactly as they were. Proof: a record in two ranges is refused at the
first one or not at all, and a control record in front of its update. -/
theorem refused_unchanged (line : List u8) (data : LocalBuffer)
    (reachable : Reachable heap hexFile) (generous : heap.Generous)
    (returned : parseOneLine heap hexFile line data = .ok (false, changed, relinked)) :
    changed = heap ∧ relinked = hexFile := by
  obtain ⟨nodes, owns⟩ := reachable_owns heap hexFile reachable
  rw [parse_record] at returned
  split_ifs at returned with record checks
  · rw [CheckedRecord.process] at returned
    split_ifs at returned
    · exact pieces_atomic heap changed hexFile relinked nodes _ _ owns generous
        (checked_short line data checks) returned
    · simp at returned
    · cases updates : (recordOf (recordArray line data)).update hexFile with
      | none =>
        obtain ⟨rfl, rfl⟩ : heap = changed ∧ hexFile = relinked := by
          simpa [updates] using returned
        exact ⟨rfl, rfl⟩
      | some update => simp [updates] at returned
  · obtain ⟨rfl, rfl⟩ : heap = changed ∧ hexFile = relinked := by simpa using returned
    exact ⟨rfl, rfl⟩
  · simp at returned

end Refused

set_option maxRecDepth 8000 in
/-- Two bytes at 16, then a byte at 17: the second line is refused. The two bytes are all that is
there behind it. -/
theorem overlap_unchanged :
    ∃ heap hexFile changed relinked, Reachable heap hexFile ∧ hexFile.blockHead ≠ none ∧
      parseOneLine heap hexFile (":0100110003EB\n".toList.map code) .zero =
        .ok (false, changed, relinked) ∧ changed = heap ∧ relinked = hexFile := by
  have reached := Reachable.line ⟨[], fun _ => true⟩ _ .fresh _
    (":020010000102EB\n".toList.map code) .zero true (.fresh fun _ => true) rfl
  exact ⟨_, _, _, _, reached, by simp, rfl, refused_unchanged _ _ _ _
    (":0100110003EB\n".toList.map code) .zero reached (fun _ => rfl) rfl⟩

end EffiLib.IntelHex
