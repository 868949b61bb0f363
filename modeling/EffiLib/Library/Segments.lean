import Mathlib

/-!
# Segments of a number line and the maps they hold

A segment places a list of items at consecutive natural-number positions. A list
of segments holds the partial map that answers with the first segment covering a
position. While the segments are pairwise apart, the answer does not depend on
their order, so inserting a segment anywhere or extending one in place overlays
the map with exactly the added items.

Segments are ascending when each one ends where a later one may begin. Empty
segments are permitted: they cover nothing but still take a place in the order.
-/

namespace EffiLib.Segments

universe u
variable {β : Type u}

/-- Items at the positions from `start` onward. It has one item for each position up to its
end. -/
structure Segment (β : Type u) where
  start : Nat
  items : List β
deriving DecidableEq, Repr

namespace Segment

/-- The first position behind the segment. An empty segment stops where it starts. -/
def stop (segment : Segment β) : Nat := segment.start + segment.items.length

/-- The item at a position, if the segment covers it. Outside the segment there is none. -/
def at? (segment : Segment β) (position : Nat) : Option β :=
  if segment.start ≤ position then segment.items[position - segment.start]? else none

/-- One segment ends where the other may begin, in either order. Touching segments are apart. -/
def Apart (left right : Segment β) : Prop := left.stop ≤ right.start ∨ right.stop ≤ left.start

/-- A segment does not stop before it starts. An empty one stops where it starts. -/
theorem start_le_stop (segment : Segment β) : segment.start ≤ segment.stop := by
  unfold stop
  omega

/-- Being apart does not depend on the order. One of the two stops before the other starts. -/
theorem Apart.symm {left right : Segment β} (apart : left.Apart right) : right.Apart left :=
  Or.symm apart

/-- Exactly the positions between start and stop have an item. The stop is the first position
behind the items. -/
theorem at_is_some_iff (segment : Segment β) (position : Nat) :
    (segment.at? position).isSome ↔ segment.start ≤ position ∧ position < segment.stop := by
  by_cases begun : segment.start ≤ position
  · simp only [at?, begun, if_true, isSome_getElem?, true_and, stop]
    omega
  · simp [at?, begun]

/-- Outside its bounds a segment has no item. It is the other side of the theorem before. -/
theorem at_none_iff (segment : Segment β) (position : Nat) :
    segment.at? position = none ↔ position < segment.start ∨ segment.stop ≤ position := by
  have covered := segment.at_is_some_iff position
  rw [← Option.not_isSome_iff_eq_none, covered]
  omega

/-- An item is found at its offset from the start. An offset behind the items finds none. -/
theorem at_offset (segment : Segment β) (offset : Nat) :
    segment.at? (segment.start + offset) = segment.items[offset]? := by
  simp [at?]

/-- Items appended to a segment sit at the positions from its stop onward. The first part is asked
first, but only one of them can answer. -/
theorem at_append (start : Nat) (early late : List β) (position : Nat) :
    (Segment.mk start (early ++ late)).at? position =
      ((Segment.mk start early).at? position).or
        ((Segment.mk (start + early.length) late).at? position) := by
  by_cases begun : start ≤ position
  · by_cases inside : position - start < early.length
    · have before : ¬ start + early.length ≤ position := by omega
      simp [at?, begun, before, List.getElem?_append_left inside, inside]
    · have behind : start + early.length ≤ position := by omega
      have shifted : position - start - early.length = position - (start + early.length) := by omega
      have missing : early[position - start]? = none := List.getElem?_eq_none (by omega)
      simp [at?, begun, behind, missing, List.getElem?_append_right (Nat.le_of_not_lt inside),
        shifted]
  · have before : ¬ start + early.length ≤ position := by omega
    simp [at?, begun, before]

end Segment

open Segment

/-- The partial map held by a list of segments. Where several cover a position, the first of them
answers. -/
def image (segments : List (Segment β)) (position : Nat) : Option β :=
  segments.findSome? (fun segment => segment.at? position)

/-- The map that answers from the added segment first. It is what storing a segment does to the
map. -/
def overlay (added : Segment β) (held : Nat → Option β) (position : Nat) : Option β :=
  (added.at? position).or (held position)

/-- Each segment ends before or where any later one begins. Segments that touch are in order, and
so are empty ones at the same place. -/
def Ascending (segments : List (Segment β)) : Prop :=
  segments.Pairwise (fun early late => early.stop ≤ late.start)

/-- No segment, nothing stored. -/
@[simp] theorem image_nil (position : Nat) : image ([] : List (Segment β)) position = none := rfl

/-- The first segment is asked first. Where segments overlap, it hides the others. -/
theorem image_cons (segment : Segment β) (rest : List (Segment β)) (position : Nat) :
    image (segment :: rest) position = (segment.at? position).or (image rest position) := by
  cases found : segment.at? position <;> simp [image, found]

/-- Segments in front are asked first. Where segments overlap, they hide the others. -/
theorem image_append (front back : List (Segment β)) (position : Nat) :
    image (front ++ back) position = (image front position).or (image back position) := by
  simp [image, List.findSome?_append]

/-- A position is unmapped exactly when no segment covers it. Each of them is asked. -/
theorem image_none_iff (segments : List (Segment β)) (position : Nat) :
    image segments position = none ↔
      ∀ segment ∈ segments, position < segment.start ∨ segment.stop ≤ position := by
  simp only [image, List.findSome?_eq_none_iff, at_none_iff]

/-- Segments apart from a covered position's segment are silent there. So the added segment is the
one that answers there. -/
theorem image_silent (segments : List (Segment β)) (added : Segment β)
    (apart : ∀ segment ∈ segments, segment.Apart added) (position : Nat)
    (covered : (added.at? position).isSome) : image segments position = none := by
  apply (image_none_iff segments position).mpr
  intro segment member
  obtain ⟨begun, inside⟩ := (added.at_is_some_iff position).mp covered
  rcases apart segment member with before | behind
  · exact Or.inr (by omega)
  · exact Or.inl (by omega)

/-- Nonempty segments are apart from a nonempty one exactly when their map is
silent on all of it: two that are not apart share the later of their starts. -/
theorem apart_iff_silent (segments : List (Segment β)) (added : Segment β)
    (nonempty : ∀ segment ∈ segments, 0 < segment.items.length)
    (positive : 0 < added.items.length) :
    (∀ segment ∈ segments, segment.Apart added) ↔
      ∀ position, added.start ≤ position → position < added.stop →
        image segments position = none := by
  constructor
  · intro apart position begun inside
    exact image_silent segments added apart position
      ((added.at_is_some_iff position).mpr ⟨begun, inside⟩)
  · intro silent segment member
    by_contra meets
    have items := nonempty segment member
    simp only [Apart, stop, not_or] at meets
    have outside := (image_none_iff segments _).mp (silent (max added.start segment.start)
      (le_max_left _ _) (by simp only [stop]; omega)) segment member
    simp only [stop] at outside
    omega

/-- Wherever it is inserted, a segment apart from all others overlays their map. Its place in the
list does not matter. -/
theorem image_insert (front back : List (Segment β)) (added : Segment β)
    (apart : ∀ segment ∈ front, segment.Apart added) (position : Nat) :
    image (front ++ added :: back) position = overlay added (image (front ++ back)) position := by
  rw [image_append, image_cons, overlay, image_append]
  cases found : added.at? position with
  | none => simp
  | some item =>
    have silent := image_silent front added apart position (by simp [found])
    simp [silent]

/-- Extending a segment in place overlays the map with the appended items. The other segments have
to be apart from the new part only. -/
theorem image_extend (front back : List (Segment β)) (start : Nat) (early late : List β)
    (apart : ∀ segment ∈ front, segment.Apart ⟨start + early.length, late⟩) (position : Nat) :
    image (front ++ ⟨start, early ++ late⟩ :: back) position =
      overlay ⟨start + early.length, late⟩ (image (front ++ ⟨start, early⟩ :: back)) position := by
  rw [image_append, image_cons, at_append, overlay, image_append, image_cons]
  cases found : (Segment.mk (start + early.length) late).at? position with
  | none => simp
  | some item =>
    have silent := image_silent front _ apart position (by simp [found])
    have unmapped : (Segment.mk start early).at? position = none := by
      refine (at_none_iff _ position).mpr (Or.inr ?_)
      have covered := (at_is_some_iff _ position).mp (Option.isSome_of_eq_some found)
      exact covered.1
    simp [silent, unmapped]

/-- The map of segments that are pairwise apart does not depend on their order. Apart from their
order, only the elements at a position count, and at most one segment has one there. -/
theorem image_perm (left right : List (Segment β)) (same : left.Perm right)
    (apart : left.Pairwise Segment.Apart) (position : Nat) :
    image left position = image right position := by
  induction same with
  | nil => rfl
  | cons segment _ inductionHypothesis =>
    rw [image_cons, image_cons, inductionHypothesis (List.pairwise_cons.mp apart).2]
  | swap first second rest =>
    have distinct : second.Apart first := (List.pairwise_cons.mp apart).1 first (by simp)
    simp only [image_cons]
    cases found : first.at? position with
    | none => simp
    | some item =>
      have covered := (at_is_some_iff first position).mp (by simp [found])
      have silent : second.at? position = none := by
        apply (at_none_iff second position).mpr
        rcases distinct with before | behind
        · exact Or.inr (by omega)
        · exact Or.inl (by omega)
      simp [silent]
  | trans early _ first second =>
    have middle := early.pairwise apart (fun distinct => distinct.symm)
    exact (first apart).trans (second middle)

/-- What ascending order says about the segments around a chosen one. Inserting and taking out a
segment are both instances. -/
theorem ascending_split (front back : List (Segment β)) (middle : Segment β) :
    Ascending (front ++ middle :: back) ↔
      Ascending (front ++ back) ∧ (∀ early ∈ front, early.stop ≤ middle.start) ∧
        ∀ late ∈ back, middle.stop ≤ late.start := by
  simp only [Ascending, List.pairwise_append, List.pairwise_cons, List.mem_cons, forall_eq_or_imp]
  constructor
  · rintro ⟨early, ⟨later, late⟩, across⟩
    exact ⟨⟨early, late, fun first member => (across first member).2⟩,
      fun first member => (across first member).1, later⟩
  · rintro ⟨⟨early, late, across⟩, before, behind⟩
    exact ⟨early, ⟨behind, late⟩, fun first member => ⟨before first member, across first member⟩⟩

/-- Two ascending lists join when the first one's last segment ends before the
second one's first segment begins; both lists are nonempty here. -/
theorem ascending_join (front back : List (Segment β)) (last first : Segment β) :
    Ascending ((front ++ [last]) ++ first :: back) ↔
      Ascending (front ++ [last]) ∧ Ascending (first :: back) ∧ last.stop ≤ first.start := by
  constructor
  · intro whole
    obtain ⟨early, late, across⟩ := List.pairwise_append.mp whole
    exact ⟨early, late, across last (by simp) first (by simp)⟩
  · rintro ⟨early, late, touching⟩
    refine List.pairwise_append.mpr ⟨early, late, ?_⟩
    intro left leftMember right rightMember
    have leftBound : left.stop ≤ last.stop := by
      rcases List.mem_append.mp leftMember with inner | atEnd
      · have before := ((ascending_split front [] last).mp early).2.1 left inner
        exact before.trans last.start_le_stop
      · exact (List.mem_singleton.mp atEnd) ▸ Nat.le_refl _
    have rightBound : first.start ≤ right.start := by
      rcases List.mem_cons.mp rightMember with rfl | inner
      · exact Nat.le_refl _
      · have behind := (List.pairwise_cons.mp late).1 right inner
        exact first.start_le_stop.trans behind
    omega

/-- Each segment begins where the one in front of it ends. Nothing is missing and nothing is
doubled between neighbours. -/
def Contiguous (segments : List (Segment β)) : Prop :=
  segments.IsChain fun early late => early.stop = late.start

/-- The positions between neighbours that neither of them covers. For ascending segments it is
what has to be filled to make them contiguous. -/
def gapTotal : List (Segment β) → Nat
  | early :: late :: rest => (late.start - early.stop) + gapTotal (late :: rest)
  | _ => 0

/-- The positions from the start of the first segment to the stop of the last. No segment spans
nothing. -/
def Spans (segments : List (Segment β)) (position : Nat) : Prop :=
  ∃ first ∈ segments.head?, ∃ last ∈ segments.getLast?,
    first.start ≤ position ∧ position < last.stop

/-- Contiguous segments leave no gap. Each of them starts where the one in front stops. -/
theorem contiguous_gap_total (segments : List (Segment β)) (contiguous : Contiguous segments) :
    gapTotal segments = 0 := by
  induction contiguous with
  | nil => rfl
  | singleton => rfl
  | cons_cons touching _ inductionHypothesis =>
    rw [gapTotal, inductionHypothesis, touching, Nat.sub_self]

/-- Contiguous segments lie in front of the end of the last one. Proof: by induction on the
segments behind the first. -/
theorem contiguous_grows (segment last : Segment β) (rest : List (Segment β))
    (contiguous : Contiguous (segment :: rest)) (atEnd : last ∈ (segment :: rest).getLast?) :
    segment.stop ≤ last.stop := by
  induction rest generalizing segment with
  | nil =>
    obtain rfl : segment = last := by simpa using atEnd
    exact Nat.le_refl _
  | cons next rest inductionHypothesis =>
    obtain ⟨touching, later⟩ := List.isChain_cons_cons.mp contiguous
    rw [List.getLast?_cons_cons] at atEnd
    rw [touching]
    exact next.start_le_stop.trans (inductionHypothesis next later atEnd)

/-- The map of contiguous segments answers exactly at the positions they span. Proof: a position
behind the first segment is spanned by the rest, which starts where that one stops. -/
theorem contiguous_covers (segments : List (Segment β)) (contiguous : Contiguous segments)
    (position : Nat) : (image segments position).isSome ↔ Spans segments position := by
  induction segments with
  | nil => simp [Spans]
  | cons segment rest inductionHypothesis =>
    rw [image_cons, Option.isSome_or, Bool.or_eq_true, at_is_some_iff,
      inductionHypothesis contiguous.tail]
    cases rest with
    | nil => simp [Spans]
    | cons next rest =>
      have touching := (List.isChain_cons_cons.mp contiguous).1
      have spans := segment.start_le_stop
      simp only [Spans, List.head?_cons, Option.mem_some_iff, exists_eq_left',
        List.getLast?_cons_cons]
      constructor
      · rintro (⟨begun, inside⟩ | ⟨last, atEnd, begun, inside⟩)
        · obtain ⟨last, atEnd⟩ : ∃ last, last ∈ (next :: rest).getLast? :=
            ⟨_, List.getLast?_eq_some_getLast (List.cons_ne_nil next rest)⟩
          have grows := contiguous_grows segment last (next :: rest) contiguous
            (by rwa [List.getLast?_cons_cons])
          exact ⟨last, atEnd, begun, by omega⟩
        · exact ⟨last, atEnd, by omega, inside⟩
      · rintro ⟨last, atEnd, begun, inside⟩
        by_cases early : position < segment.stop
        · exact Or.inl ⟨begun, early⟩
        · exact Or.inr ⟨last, atEnd, by omega, inside⟩

/-- The whole map answers exactly what one of the two parts answers. Nothing is said about
positions where the two parts disagree, where no map is a union. -/
def IsUnion (left right whole : Nat → Option β) : Prop :=
  ∀ position element, whole position = some element ↔
    left position = some element ∨ right position = some element

/-- A union does not depend on the order of its parts. Each position is asked of both. -/
theorem IsUnion.symm {left right whole : Nat → Option β} (union : IsUnion left right whole) :
    IsUnion right left whole := fun position element =>
  (union position element).trans Or.comm

/-- Two parts that are not both present anywhere have their concatenation as union. Ascending
segments cannot be present in both at one position. -/
theorem union_append (left right : List (Segment β)) (ascending : Ascending (left ++ right)) :
    IsUnion (image left) (image right) (image (left ++ right)) := by
  intro position element
  rw [image_append]
  cases early : image left position with
  | none => simp
  | some found =>
    have late : image right position = none := by
      obtain ⟨_, _, across⟩ := List.pairwise_append.mp ascending
      obtain ⟨segment, member, covers⟩ := List.exists_of_findSome?_eq_some early
      obtain ⟨_, inside⟩ := (segment.at_is_some_iff position).mp (by rw [covers]; rfl)
      refine (image_none_iff right position).mpr fun other belongs => Or.inl ?_
      exact Nat.lt_of_lt_of_le inside (across segment member other belongs)
    simp [late]

/-- The positions a segment covers, each with its element. The pairs are the segment written out
one position at a time. -/
def Segment.cells (segment : Segment β) : List (Nat × β) :=
  segment.items.mapIdx fun offset element => (segment.start + offset, element)

/-- The positions covered by a list of segments, in list order. It keeps the order in which the
segments are met. -/
def cells (segments : List (Segment β)) : List (Nat × β) := segments.flatMap Segment.cells

/-- No segment, no cell. -/
@[simp] theorem cells_nil : cells ([] : List (Segment β)) = [] := rfl

/-- The cells of the first segment and of the rest. They come in the order of the segments. -/
@[simp] theorem cells_cons (segment : Segment β) (rest : List (Segment β)) :
    cells (segment :: rest) = segment.cells ++ cells rest := rfl

/-- A segment has one cell for each item. The positions count up from its start. -/
@[simp] theorem segment_cells_length (segment : Segment β) :
    segment.cells.length = segment.items.length := List.length_mapIdx

/-- The cells of a segment are its answers. A cell is a position with its element. -/
theorem segment_cells_mem (segment : Segment β) (position : Nat) (element : β) :
    (position, element) ∈ segment.cells ↔ segment.at? position = some element := by
  simp only [Segment.cells, List.mem_mapIdx, Prod.mk.injEq]
  constructor
  · rintro ⟨offset, inside, rfl, rfl⟩
    rw [segment.at_offset, List.getElem?_eq_getElem inside]
  · intro found
    obtain ⟨begun, inside⟩ := (segment.at_is_some_iff position).mp (by rw [found]; rfl)
    have split : segment.start + (position - segment.start) = position := by omega
    rw [← split, segment.at_offset] at found
    obtain ⟨bound, same⟩ := List.getElem?_eq_some_iff.mp found
    exact ⟨position - segment.start, bound, split, same⟩

/-- The cells of ascending segments are the answers of their map. Proof: by induction on the
segments, since no later one answers at a position of an earlier one. -/
theorem cells_mem (segments : List (Segment β)) (ascending : Ascending segments) (position : Nat)
    (element : β) :
    (position, element) ∈ cells segments ↔ image segments position = some element := by
  induction segments with
  | nil => simp
  | cons segment rest inductionHypothesis =>
    have union := union_append [segment] rest ascending position element
    have restAscending := (List.pairwise_cons.mp ascending).2
    rw [List.singleton_append] at union
    rw [cells_cons, List.mem_append, segment_cells_mem, inductionHypothesis restAscending, union,
      image_cons, image_nil, Option.or_none]

/-- The cells of ascending segments are met in strictly ascending order. So no position occurs
twice among them. -/
theorem cells_ascending (segments : List (Segment β)) (ascending : Ascending segments) :
    ((cells segments).map Prod.fst).Pairwise (· < ·) := by
  induction segments with
  | nil => exact List.Pairwise.nil
  | cons segment rest inductionHypothesis =>
    obtain ⟨ahead, restAscending⟩ := List.pairwise_cons.mp ascending
    rw [cells_cons, List.map_append, List.pairwise_append]
    refine ⟨?_, inductionHypothesis restAscending, ?_⟩
    · apply List.pairwise_iff_getElem.mpr
      intro left right leftInside rightInside before
      simpa [Segment.cells] using before
    · intro left leftMember right rightMember
      obtain ⟨⟨early, element⟩, inSegment, rfl⟩ := List.mem_map.mp leftMember
      obtain ⟨⟨late, other⟩, inRest, rfl⟩ := List.mem_map.mp rightMember
      have covered := (segment_cells_mem segment early element).mp inSegment
      have inside := ((segment.at_is_some_iff early).mp (by rw [covered]; rfl)).2
      obtain ⟨holder, belongs, holds⟩ := List.mem_flatMap.mp inRest
      have later := (segment_cells_mem holder late other).mp holds
      have begun := ((holder.at_is_some_iff late).mp (by rw [later]; rfl)).1
      have apart := ahead holder belongs
      simp only
      omega

end EffiLib.Segments
