import Mathlib

/-!
# Enumerations of permutations

An enumeration lists every permutation of a list once. It can be put together by the last
element: each element in turn comes last, behind an enumeration of the others.
-/

namespace EffiLib.Enumeration

open scoped Nat

universe u
variable {α : Type u}

/-- Every permutation of a list, each once. Elements that are equal make fewer permutations, each
of which is still found once. -/
structure Enumerates (elements : List α) (found : List (List α)) : Prop where
  distinct : found.Nodup
  exhaustive : ∀ arrangement, arrangement ∈ found ↔ arrangement.Perm elements

/-- There are as many permutations of distinct elements as their number's factorial. Proof: the
permutations of Mathlib are another enumeration, and two of them have the same elements. -/
theorem enumerates_length (elements : List α) (found : List (List α)) (distinct : elements.Nodup)
    (enumerates : Enumerates elements found) : found.length = elements.length ! := by
  have same : found.Perm elements.permutations := by
    apply (List.perm_ext_iff_of_nodup enumerates.distinct
      (List.nodup_permutations elements distinct)).mpr
    intro arrangement
    rw [enumerates.exhaustive, List.mem_permutations]
  rw [same.length_eq, List.length_permutations]

/-- A list of at most one element is its only permutation. It is where a recursion over the
elements begins. -/
theorem enumerates_short (elements : List α) (short : elements.length ≤ 1) :
    Enumerates elements [elements] := by
  refine ⟨List.nodup_singleton elements, ?_⟩
  intro arrangement
  rw [List.mem_singleton]
  constructor
  · rintro rfl
    exact List.Perm.refl _
  · intro permuted
    cases elements with
    | nil => exact permuted.eq_nil
    | cons first rest =>
      have alone : rest = [] := List.eq_nil_of_length_eq_zero (by simpa using short)
      rw [alone] at permuted ⊢
      exact List.perm_singleton.mp permuted

/-- Choices of the last element, each behind an enumeration of the others, are an enumeration
together. Distinct elements keep the choices apart, and the last element of a permutation
tells which choice it belongs to. -/
theorem enumerates_last (elements : List α) (distinct : elements.Nodup) (nonempty : elements ≠ [])
    (last : Nat → α) (others : Nat → List α) (found : Nat → List (List α))
    (chosen : ∀ i < elements.length, elements[i]? = some (last i))
    (split : ∀ i < elements.length, (others i ++ [last i]).Perm elements)
    (each : ∀ i < elements.length, Enumerates (others i) (found i)) :
    Enumerates elements
      ((List.range elements.length).flatMap fun i => (found i).map (· ++ [last i])) := by
  constructor
  · rw [List.nodup_flatMap]
    constructor
    · intro i member
      exact (each i (List.mem_range.mp member)).distinct.map (List.append_left_injective [last i])
    · refine List.nodup_range.imp_of_mem ?_
      intro i j iMember jMember apart arrangement inFirst inSecond
      obtain ⟨first, -, rfl⟩ := List.mem_map.mp inFirst
      obtain ⟨second, -, same⟩ := List.mem_map.mp inSecond
      have element : last j = last i := List.singleton_inj.mp (List.append_inj_right' same rfl)
      have inside := List.mem_range.mp iMember
      apply apart
      apply (List.getElem?_inj inside distinct).mp
      rw [chosen i inside, chosen j (List.mem_range.mp jMember), element]
  · intro arrangement
    rw [List.mem_flatMap]
    constructor
    · rintro ⟨i, member, listed⟩
      obtain ⟨front, enumerated, rfl⟩ := List.mem_map.mp listed
      have inside := List.mem_range.mp member
      exact (((each i inside).exhaustive front).mp enumerated |>.append_right _).trans
        (split i inside)
    · intro permuted
      cases arrangement using List.reverseRecOn with
      | nil => exact absurd permuted.symm.eq_nil nonempty
      | append_singleton front element =>
        obtain ⟨i, place⟩ := List.mem_iff_getElem?.mp (permuted.subset (by simp : element ∈ _))
        have inside : i < elements.length := (List.getElem?_eq_some_iff.mp place).choose
        have same : element = last i := Option.some.inj (place.symm.trans (chosen i inside))
        subst same
        refine ⟨i, List.mem_range.mpr inside, List.mem_map.mpr ⟨front, ?_, rfl⟩⟩
        apply ((each i inside).exhaustive front).mpr
        exact (List.perm_append_right_iff [last i]).mp (permuted.trans (split i inside).symm)

end EffiLib.Enumeration
