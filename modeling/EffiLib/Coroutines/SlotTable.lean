import EffiLib.Coroutines.Consistency

/-!
# The slot table over runs

`coroutine_new` doubles the capacity twice when the table is full, and returns the old
capacity while it writes the slot at twice that index; the slots between were never written.
So the table is in order throughout a run exactly when no coroutine is created in a full
table.
-/

namespace EffiLib.Coroutines

open Runs

/-- What the slot table promises: every coroutine whose function has not returned is at the
id that was returned for it and at no other's, every slot below the capacity was written,
`nco` counts the slots that are not `NULL`, and `coroutine_new` does not reach its
`assert(0)`. -/
structure Orderly (watched : Watched) : Prop where
  placed : ∀ co id, watched.returned co = some id →
    contentAt watched.state.sch.co id = some co
  apart : ∀ co other id, watched.returned co = some id → watched.returned other = some id →
    co = other
  initialised : ∀ id < watched.state.sch.cap,
    ∃ slot, watched.state.sch.co[id]? = some slot ∧ slot.written = true
  counted : watched.state.sch.nco =
    (watched.state.sch.co.take watched.state.sch.cap).countP (·.content.isSome)
  safe : ∀ garbage, coroutineNew garbage watched.state ≠ .error .assertion

/-- A table in which everything is consistent is in order. Its slots were all written, and no
coroutine is in two of them. -/
theorem consistent_orderly (watched : Watched) (consistent : Consistent watched) :
    Orderly watched := by
  refine ⟨fun co id => (consistent.placed id co).mpr, ?_, ?_, ?_, ?_⟩
  · intro co other id first second
    rw [← consistent.placed] at first second
    exact Option.some.inj (first.symm.trans second)
  · intro id inside
    have below : id < watched.state.sch.co.length := consistent.length ▸ inside
    exact ⟨_, List.getElem?_eq_getElem below, consistent.written _ (List.getElem_mem below)⟩
  · rw [List.take_of_length_le (Nat.le_of_eq consistent.length)]
    exact consistent.counted
  · intro garbage
    by_cases free : watched.state.sch.nco < watched.state.sch.cap
    · obtain ⟨id, -, -, creates⟩ := new_creates watched garbage consistent free
      simp [creates]
    · rw [coroutineNew]
      simp only [if_pos (Nat.le_of_not_lt free)]
      simp

/-- The slot at the old capacity is neither copied by `realloc` nor reached by `memset`. Its
content is what the new memory held. -/
theorem stale_slot (co : List Slot) (garbage : Nat → Option Nat) (room : 0 < co.length) :
    (clear (realloc co (co.length * 2 * 2) garbage) (co.length * 2) (co.length * 2))[co.length]? =
      some ⟨garbage co.length, false⟩ := by
  have kept : (co.take (co.length * 2 * 2)) = co := List.take_of_length_le (by omega)
  have gained : co.length * 2 * 2 - co.length = co.length * 3 := by omega
  rw [clear, realloc, kept, gained, List.append_assoc,
    List.getElem?_append_left (by simp; omega), List.getElem?_take_of_lt (by omega),
    List.getElem?_append_right (Nat.le_refl _), Nat.sub_self, List.getElem?_map,
    List.getElem?_range (by omega)]
  rfl

/-- Creating a coroutine in a full table leaves a slot below the new capacity that was never
written. -/
theorem full_new_disorderly (watched next : Watched) (garbage : Nat → Option Nat)
    (consistent : Consistent watched) (full : watched.state.sch.cap ≤ watched.state.sch.nco)
    (performed : perform watched (.new garbage) = .ok next) : ¬ Orderly next := by
  intro orderly
  have room := consistent.room
  have length := consistent.length
  simp only [perform, coroutineNew, if_pos full, bind, Except.bind] at performed
  obtain rfl := (Except.ok.inj performed).symm
  obtain ⟨slot, read, written⟩ := orderly.initialised watched.state.sch.cap (by simp only; omega)
  have stale : slot = ⟨garbage watched.state.sch.cap, false⟩ := by
    change ((clear _ _ _).set (watched.state.sch.cap * 2) _)[watched.state.sch.cap]? = _ at read
    rw [List.getElem?_set_ne (by omega), ← length, stale_slot _ _ (length ▸ room)] at read
    rw [← length]
    exact (Option.some.inj read).symm
  rw [stale] at written
  exact Bool.false_ne_true written

/-- The table is in order throughout a run exactly when every coroutine is created with a slot
free. Proof: with a slot free every action keeps the table in order, and a creation in a full one
breaks that at once. -/
theorem slot_table_exactly (actions : List Action) (final : Watched)
    (completed : run perform opened actions = .ok final) :
    (∀ watched, Visits perform opened actions watched → Orderly watched) ↔
      ∀ watched garbage, Takes perform opened actions watched (.new garbage) →
        watched.state.sch.nco < watched.state.sch.cap := by
  rw [run_exactly perform Consistent Orderly (fun _ _ => True)
    (fun watched action => ∀ garbage, action = .new garbage →
      watched.state.sch.nco < watched.state.sch.cap) consistent_orderly
    (fun watched action next consistent _ free performed =>
      perform_consistent watched next action consistent free performed) ?_ opened final actions
    opened_consistent completed (fun _ _ _ => trivial)]
  · constructor
    · exact fun all watched garbage takes => all watched _ takes garbage rfl
    · rintro all watched action takes garbage rfl
      exact all watched garbage takes
  · intro watched action next consistent _ taken performed
    simp only [not_forall, Nat.not_lt] at taken
    obtain ⟨garbage, rfl, full⟩ := taken
    exact full_new_disorderly watched next garbage consistent full performed

/-- A coroutine is created, resumed and returns. There are fifteen more slots. -/
theorem one_coroutine_orderly :
    ∃ final, run perform opened [.new fun _ => none, .resume 0, .finish] = .ok final ∧
      ∀ watched, Visits perform opened [.new fun _ => none, .resume 0, .finish] watched →
        Orderly watched := by
  refine ⟨_, rfl, (slot_table_exactly _ _ rfl).mpr ?_⟩
  intro watched garbage takes
  obtain rfl := takes_first perform (fun action => ∃ garbage, action = .new garbage) opened watched
    _ _ _ (by simp) ⟨garbage, rfl⟩ takes
  decide

/-- The seventeenth coroutine is returned the id 16 and is put into slot 32. The table was full
before it and is doubled twice. -/
theorem seventeenth_misplaced :
    ∃ final, run perform opened (List.replicate 17 (.new fun _ => none)) = .ok final ∧
      final.returned 16 = some 16 ∧ contentAt final.state.sch.co 16 = none ∧
      contentAt final.state.sch.co 32 = some 16 ∧ ¬ Orderly final := by
  refine ⟨_, rfl, rfl, rfl, rfl, ?_⟩
  intro orderly
  have placed := orderly.placed 16 16 rfl
  exact absurd placed (by decide)

end EffiLib.Coroutines
