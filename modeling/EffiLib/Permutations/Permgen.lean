import EffiLib.Library.Buffers
import EffiLib.Library.Enumeration

/-!
# The permutation generator

`permgen` exchanges each element in turn with the last of the first `n`, yields all
permutations of the elements in front of it, and exchanges the two again. Each call leaves the
array as it was, so the choices do not disturb each other, and the yields are an enumeration.
-/

namespace EffiLib.Permutations

open Buffers Enumeration
open scoped Nat

universe u v
variable {α : Type u}

/-- Exchange two elements. Both are read before either is written. An index outside of the array
faults. -/
def exchange (a : List α) (i j : Nat) : Run (List α) := do
  let first ← load a i
  let second ← load a j
  let a ← store a i second
  store a j first

/-- `permgen` for a given `n`: the contents of the array at the yields, and the array at the
end. Positions count from zero. -/
def permgenTo : Nat → List α → Run (List (List α) × List α)
  | 0, a => .ok ([a], a)
  | 1, a => .ok ([a], a)
  | n + 2, a =>
    (List.range (n + 2)).foldlM (fun (yields, a) i => do
      let a ← exchange a (n + 1) i
      let (inner, a) ← permgenTo (n + 1) a
      let a ← exchange a (n + 1) i
      .ok (yields ++ inner, a)) ([], a)

/-- `permgen`, where `n` is the size of the array unless it is given. A yield is recorded as the
array is at that time. -/
def permgen (a : List α) (n : Option Nat) : Run (List (List α) × List α) :=
  permgenTo (n.getD a.length) a

/-! ## Exchanges -/

/-- An element exchanged with itself. Both loads are made before the stores. -/
theorem exchange_same (front rest : List α) (element : α) :
    exchange (front ++ element :: rest) front.length front.length =
      .ok (front ++ element :: rest) := by
  rw [exchange, load_next _ _ _ _ rfl, ok_bind, ok_bind, store_next _ _ _ _ _ rfl, ok_bind,
    store_next _ _ _ _ _ rfl]

/-- Two elements exchanged, the later one named first. What stands between the two and around them
stays. -/
theorem exchange_apart (front middle rest : List α) (early late : α) :
    exchange (front ++ early :: (middle ++ late :: rest)) (front.length + 1 + middle.length)
      front.length = .ok (front ++ late :: (middle ++ early :: rest)) := by
  have regroup (x y : α) : front ++ x :: (middle ++ y :: rest) =
      (front ++ x :: middle) ++ y :: rest := by simp
  have position (x : α) : (front ++ x :: middle).length = front.length + 1 + middle.length := by
    simp only [List.length_append, List.length_cons]
    omega
  have read : load (front ++ early :: (middle ++ late :: rest))
      (front.length + 1 + middle.length) = .ok late := by
    rw [regroup]
    exact load_next _ _ _ _ (position early)
  have written : store (front ++ early :: (middle ++ late :: rest))
      (front.length + 1 + middle.length) early =
        .ok (front ++ early :: (middle ++ early :: rest)) := by
    rw [regroup, store_next _ _ _ _ _ (position early), regroup]
  rw [exchange, read, ok_bind, load_next _ _ _ _ rfl, ok_bind, written, ok_bind,
    store_next _ _ _ _ _ rfl]

/-- The exchange with the last of the first elements brings the chosen one there. The second
exchange takes it back. -/
theorem exchange_chosen (front rest : List α) (n i : Nat) (size : front.length = n + 1)
    (inside : i < n + 1) :
    ∃ others element, front[i]? = some element ∧ (others ++ [element]).Perm front ∧
      exchange (front ++ rest) n i = .ok (others ++ ([element] ++ rest)) ∧
      exchange (others ++ ([element] ++ rest)) n i = .ok (front ++ rest) := by
  cases front using List.reverseRecOn with
  | nil => simp at size
  | append_singleton shorter late =>
    have length : shorter.length = n := by simpa using size
    by_cases final : i = n
    · have same := exchange_same shorter rest late
      rw [length] at same
      refine ⟨shorter, late, ?_, List.Perm.refl _, ?_, ?_⟩
      · simp [final, ← length]
      · simpa [final] using same
      · simpa [final] using same
    · have early : i < shorter.length := by omega
      obtain ⟨before, element, middle, split, position⟩ :
          ∃ before element middle, shorter = before ++ element :: middle ∧ before.length = i :=
        ⟨shorter.take i, shorter[i], shorter.drop (i + 1),
          by rw [← List.drop_eq_getElem_cons early, List.take_append_drop],
          List.length_take_of_le (Nat.le_of_lt early)⟩
      subst split position
      have there := exchange_apart before middle rest element late
      have back := exchange_apart before middle rest late element
      have place : before.length + 1 + middle.length = n := by
        simp only [List.length_append, List.length_cons] at length
        omega
      rw [place] at there back
      refine ⟨before ++ late :: middle, element, by simp, ?_, ?_, ?_⟩
      · have moved : (late :: (middle ++ [element])).Perm (element :: (middle ++ [late])) :=
          (List.perm_append_singleton element (late :: middle)).trans
            ((List.perm_append_singleton late middle).symm.cons element)
        simpa using moved.append_left before
      · simpa using there
      · simpa using back

/-! ## Loops -/

/-- A loop whose passes restore the state collects what each pass finds. Proof: by induction on
the indices. -/
theorem collect {ι : Type v} {σ : Type u} (body : List (List α) × σ → ι → Run (List (List α) × σ))
    (state : σ) (found : ι → List (List α)) (indices : List ι) (yields : List (List α))
    (pass : ∀ yields, ∀ i ∈ indices, body (yields, state) i = .ok (yields ++ found i, state)) :
    indices.foldlM body (yields, state) = .ok (yields ++ indices.flatMap found, state) := by
  induction indices generalizing yields with
  | nil =>
    rw [List.flatMap_nil, List.append_nil]
    rfl
  | cons i indices inductionHypothesis =>
    rw [List.foldlM_cons, pass yields i List.mem_cons_self, ok_bind,
      inductionHypothesis _ fun yields j member => pass yields j (List.mem_cons_of_mem i member),
      List.flatMap_cons, List.append_assoc]

/-- One pass of the loop in `permgen` for a given `n`. The exchange is undone behind the call. -/
def permgenPass (n : Nat) (state : List (List α) × List α) (i : Nat) :
    Run (List (List α) × List α) := do
  let a ← exchange state.2 n i
  let (inner, a) ← permgenTo n a
  let a ← exchange a n i
  .ok (state.1 ++ inner, a)

/-- The generator for at least two elements is a loop of passes. This is the definition, with the
body given a name. -/
theorem permgen_to_passes (n : Nat) (a : List α) :
    permgenTo (n + 2) a = (List.range (n + 2)).foldlM (permgenPass (n + 1)) ([], a) := rfl

/-- The generator yields, for the first elements of an array, their permutations in front of
the other elements, and leaves the array as it was. -/
def Generates (front rest : List α) : Prop :=
  ∃ found, Enumerates front found ∧
    permgenTo front.length (front ++ rest) = .ok (found.map (· ++ rest), front ++ rest)

/-- A pass yields the permutations with one choice of the last element, if the generator does
so for fewer elements. -/
theorem pass_generates (front rest : List α) (n i : Nat) (size : front.length = n + 2)
    (distinct : front.Nodup) (inside : i < n + 2)
    (fewer : ∀ others more : List α, others.length = n + 1 → others.Nodup →
      Generates others more) :
    ∃ element others found, front[i]? = some element ∧ (others ++ [element]).Perm front ∧
      Enumerates others found ∧
      ∀ yields, permgenPass (n + 1) (yields, front ++ rest) i =
        .ok (yields ++ (found.map (· ++ [element])).map (· ++ rest), front ++ rest) := by
  obtain ⟨others, element, place, permuted, there, back⟩ :=
    exchange_chosen front rest (n + 1) i size inside
  have length : others.length = n + 1 := by
    have lengths := permuted.length_eq
    rw [List.length_append, List.length_singleton, size] at lengths
    omega
  have apart : others.Nodup := (permuted.nodup_iff.mpr distinct).of_append_left
  obtain ⟨found, enumerates, inner⟩ := fewer others ([element] ++ rest) length apart
  rw [length] at inner
  refine ⟨element, others, found, place, permuted, enumerates, ?_⟩
  intro yields
  have regroup : found.map (· ++ ([element] ++ rest)) =
      (found.map (· ++ [element])).map (· ++ rest) := by
    rw [List.map_map]
    exact List.map_congr_left fun front _ => (List.append_assoc front [element] rest).symm
  simp only [permgenPass, there, ok_bind, inner, back, regroup]

/-- The generator enumerates the permutations of the first elements, by induction on their number.
Each element of the front comes last once, behind the permutations of the others. -/
theorem permgen_generates (front rest : List α) (distinct : front.Nodup) :
    Generates front rest := by
  induction size : front.length using Nat.strongRecOn generalizing front rest with
  | ind n inductionHypothesis =>
    cases n with
    | zero => exact ⟨[front], enumerates_short front (by omega), by rw [size]; rfl⟩
    | succ n =>
      cases n with
      | zero => exact ⟨[front], enumerates_short front (by omega), by rw [size]; rfl⟩
      | succ n =>
        have nonempty : front ≠ [] := List.ne_nil_of_length_eq_add_one size
        have inhabited : Nonempty α := ⟨front.head nonempty⟩
        have passes := fun i inside => pass_generates front rest n i size distinct inside
          fun others more length apart =>
            inductionHypothesis (n + 1) (Nat.lt_succ_self _) others more apart length
        choose! last others found chosen split each pass using passes
        have collected := collect (permgenPass (n + 1)) (front ++ rest) _ (List.range (n + 2)) []
          fun yields i member => pass i (List.mem_range.mp member) yields
        rw [← size] at chosen split each
        refine ⟨_, enumerates_last front distinct nonempty last others found chosen split each, ?_⟩
        rw [size, permgen_to_passes, collected, List.nil_append, List.map_flatMap]

/-- For the whole array there are no other elements. So the enumeration is of the array itself. -/
theorem permgen_whole (a : List α) (distinct : a.Nodup) :
    ∃ found, Enumerates a found ∧ permgen a none = .ok (found, a) := by
  obtain ⟨found, enumerates, run⟩ := permgen_generates a [] distinct
  simp only [List.append_nil, List.map_id'] at run
  exact ⟨found, enumerates, run⟩

/-- `permgen` on distinct elements yields every permutation of the array once, as many as the
factorial of its size, and leaves the array as it was. Proof: each element in turn comes last,
behind an enumeration of the others, and the exchanges take each other back. -/
theorem permgen_permutations (a : List α) (distinct : a.Nodup) :
    ∃ yields, permgen a none = .ok (yields, a) ∧ yields.length = a.length ! ∧ yields.Nodup ∧
      ∀ arrangement, arrangement ∈ yields ↔ arrangement.Perm a := by
  obtain ⟨found, enumerates, run⟩ := permgen_whole a distinct
  exact ⟨found, run, enumerates_length a found distinct enumerates, enumerates.distinct,
    enumerates.exhaustive⟩

/-- Two elements have two permutations. The generator is called without a length and takes that of
the array. -/
theorem two_permutations :
    ∃ yields, permgen [1, 2] none = .ok (yields, [1, 2]) ∧ yields.length = 2 ! ∧ yields.Nodup ∧
      ∀ arrangement, arrangement ∈ yields ↔ arrangement.Perm [1, 2] :=
  permgen_permutations [1, 2] (by decide)

end EffiLib.Permutations
