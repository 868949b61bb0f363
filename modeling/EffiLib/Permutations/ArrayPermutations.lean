import EffiLib.Permutations.Permgen

/-!
# The generator as a coroutine

`Permutations` keeps the depth of the recursion in the array itself. It takes the last place
and the bound of its loop from the number of all elements instead of the depth, so each level
chooses among all elements, and the yields are as many as a power of their number. This agrees
with `permgen` for one and two elements and for no other number.
-/

namespace EffiLib.Permutations

open Buffers Enumeration
open scoped Nat

universe u
variable {α : Type u}

/-- `ArrayType`, with elements of any type. `temp` is the depth of the recursion. -/
structure ArrayType (α : Type u) where
  data : List α
  count : Nat
  temp : Nat
deriving DecidableEq, Repr

/-- `ArrayInit`. The elements are the numbers from one on. -/
def arrayInit (count : Nat) : ArrayType Int where
  data := (List.range count).map fun i => (i : Int) + 1
  count := count
  temp := 0

/-- `Permutations` for calls nested up to some depth: the contents of the array at the calls of
`coroutine_yield`, and the array at the end. -/
def permutations : Nat → ArrayType α → Run (List (List α) × ArrayType α)
  | 0, _ => .error .unfinished
  | depth + 1, array =>
    if array.temp ≤ 1 then .ok ([array.data], array)
    else
      (List.range array.count).foldlM (fun (yields, array) i => do
        let data ← exchange array.data (array.count - 1) i
        let array := { array with data, temp := array.temp - 1 }
        let (inner, array) ← permutations depth array
        let array := { array with temp := array.temp + 1 }
        let data ← exchange array.data (array.count - 1) i
        .ok (yields ++ inner, { array with data })) ([], array)

/-! ## Passes -/

/-- One pass of the loop in `Permutations`. The depth is taken back behind the call. -/
def permutationsPass (depth : Nat) (state : List (List α) × ArrayType α) (i : Nat) :
    Run (List (List α) × ArrayType α) := do
  let data ← exchange state.2.data (state.2.count - 1) i
  let array := { state.2 with data, temp := state.2.temp - 1 }
  let (inner, array) ← permutations depth array
  let array := { array with temp := array.temp + 1 }
  let data ← exchange array.data (array.count - 1) i
  .ok (state.1 ++ inner, { array with data })

/-- A call that does not yield at once is a loop of passes. -/
theorem permutations_passes (depth : Nat) (array : ArrayType α) (deep : ¬ array.temp ≤ 1) :
    permutations (depth + 1) array =
      (List.range array.count).foldlM (permutationsPass depth) ([], array) := by
  rw [permutations, if_neg deep]
  rfl

/-- An array that holds as many elements as it counts, and at least one. Every exchange is inside
of it. -/
structure Counted (array : ArrayType α) : Prop where
  size : array.data.length = array.count
  positive : 0 < array.count

/-- An exchange with the last element, and the array between the two exchanges of a pass. -/
theorem pass_exchange (array : ArrayType α) (i : Nat) (counted : Counted array)
    (inside : i < array.count) :
    ∃ data, exchange array.data (array.count - 1) i = .ok data ∧
      exchange data (array.count - 1) i = .ok array.data ∧
      Counted { array with data, temp := array.temp - 1 } := by
  have last : array.count - 1 + 1 = array.count := Nat.sub_add_cancel counted.positive
  obtain ⟨others, element, -, permuted, there, back⟩ := exchange_chosen array.data []
    (array.count - 1) i (counted.size.trans last.symm) (by rw [last]; exact inside)
  simp only [List.append_nil] at there back
  exact ⟨others ++ [element], there, back, permuted.length_eq.trans counted.size, counted.positive⟩

/-- A pass adds what the nested call yields, and the array is as before. -/
theorem pass_restores (depth : Nat) (array : ArrayType α) (i : Nat) (counted : Counted array)
    (deep : 1 < array.temp) (inside : i < array.count)
    (nested : ∀ other : ArrayType α, Counted other → other.count = array.count →
      other.temp = array.temp - 1 → ∃ inner, permutations depth other = .ok (inner, other) ∧
        inner.length = array.count ^ (array.temp - 2)) :
    ∃ inner, inner.length = array.count ^ (array.temp - 2) ∧
      ∀ yields, permutationsPass depth (yields, array) i = .ok (yields ++ inner, array) := by
  obtain ⟨data, there, back, between⟩ := pass_exchange array i counted inside
  obtain ⟨inner, run, length⟩ := nested _ between rfl rfl
  have restored : array.temp - 1 + 1 = array.temp := Nat.sub_add_cancel (Nat.le_of_lt deep)
  refine ⟨inner, length, ?_⟩
  intro yields
  simp only [permutationsPass, there, ok_bind, run, back, restored]

/-- With depth enough the call returns, the array and `temp` are as before, and each level
below the first has multiplied the yields by the number of elements. -/
theorem permutations_restore (depth : Nat) (array : ArrayType α) (counted : Counted array)
    (enough : array.temp ≤ depth) (called : 0 < depth) :
    ∃ yields, permutations depth array = .ok (yields, array) ∧
      yields.length = array.count ^ (array.temp - 1) := by
  induction depth generalizing array with
  | zero => exact absurd called (Nat.lt_irrefl 0)
  | succ depth inductionHypothesis =>
    by_cases deep : array.temp ≤ 1
    · have power : array.temp - 1 = 0 := Nat.sub_eq_zero_of_le deep
      exact ⟨[array.data], by rw [permutations, if_pos deep], by rw [power]; rfl⟩
    · have below : array.temp - 2 + 1 = array.temp - 1 := by omega
      have passes := fun i inside => pass_restores depth array i counted (by omega) inside
        fun other otherCounted count temp => by
          have inner := inductionHypothesis other otherCounted (by omega) (by omega)
          rwa [count, temp, Nat.sub_sub] at inner
      choose! inner lengths pass using passes
      have collected := collect (permutationsPass depth) array inner (List.range array.count) []
        fun yields i member => pass i (List.mem_range.mp member) yields
      refine ⟨(List.range array.count).flatMap inner, ?_, ?_⟩
      · rw [permutations_passes depth array deep, collected, List.nil_append]
      · have each : ∀ i ∈ List.range array.count,
            (inner i).length = array.count ^ (array.temp - 2) :=
          fun i member => lengths i (List.mem_range.mp member)
        rw [List.length_flatMap, List.map_congr_left each, List.map_const', List.length_range,
          List.sum_replicate, smul_eq_mul, ← below, Nat.pow_succ, Nat.mul_comm]

/-- With less depth than `temp` the calls do not come to an end. -/
theorem permutations_unfinished (depth : Nat) (array : ArrayType α) (counted : Counted array)
    (short : depth < array.temp) : permutations depth array = .error .unfinished := by
  induction depth generalizing array with
  | zero => rfl
  | succ depth inductionHypothesis =>
    obtain ⟨data, there, -, between⟩ := pass_exchange array 0 counted counted.positive
    have nested := inductionHypothesis _ between (Nat.lt_sub_of_add_lt short)
    have first : permutationsPass depth ([], array) 0 = .error .unfinished := by
      simp only [permutationsPass, there, ok_bind, nested, error_bind]
    have passes : List.range array.count = 0 :: (List.range (array.count - 1)).map Nat.succ := by
      rw [← List.range_succ_eq_map, Nat.sub_add_cancel counted.positive]
    rw [permutations_passes depth array (by omega), passes, List.foldlM_cons, first, error_bind]

/-- Whatever depth is allowed, a call that returns has restored the array, with that many
yields. -/
theorem permutations_returned (depth : Nat) (array final : ArrayType α) (yields : List (List α))
    (counted : Counted array) (returned : permutations depth array = .ok (yields, final)) :
    final = array ∧ yields.length = array.count ^ (array.temp - 1) := by
  by_cases short : depth < array.temp
  · rw [permutations_unfinished depth array counted short] at returned
    cases returned
  · cases depth with
    | zero => cases returned
    | succ depth =>
      obtain ⟨found, run, length⟩ := permutations_restore (depth + 1) array counted
        (Nat.le_of_not_lt short) (Nat.succ_pos depth)
      rw [run] at returned
      cases returned
      exact ⟨rfl, length⟩

/-! ## Comparison -/

/-- `Permutations` comes to its end, yields what `permgen` yields for the same elements, which
is every permutation once, and leaves the array and `temp` as they were. -/
def AgreesWithPermgen (array : ArrayType α) : Prop :=
  ∃ depth yields, permutations depth array = .ok (yields, array) ∧
    permgen array.data none = .ok (yields, array.data) ∧
    yields.length = array.count ! ∧ yields.Nodup ∧
    ∀ arrangement, arrangement ∈ yields ↔ arrangement.Perm array.data

/-- From three elements on the power is larger than the factorial. -/
theorem factorial_lt_pow (n : Nat) : (n + 3)! < (n + 3) ^ (n + 2) := by
  induction n with
  | zero => decide
  | succ n inductionHypothesis =>
    calc (n + 1 + 3)! = (n + 4) * (n + 3)! := Nat.factorial_succ (n + 3)
      _ < (n + 4) * (n + 3) ^ (n + 2) := Nat.mul_lt_mul_of_pos_left inductionHypothesis (by omega)
      _ ≤ (n + 4) * (n + 4) ^ (n + 2) :=
        Nat.mul_le_mul_left _ (Nat.pow_le_pow_left (Nat.le_succ (n + 3)) _)
      _ = (n + 4) ^ (n + 3) := by rw [Nat.pow_succ _ (n + 2), Nat.mul_comm]

/-- From three elements on the yields are too many. -/
theorem many_disagree (array : ArrayType α) (counted : Counted array)
    (whole : array.temp = array.count) (many : 2 < array.count) : ¬ AgreesWithPermgen array := by
  rintro ⟨depth, yields, returned, -, length, -⟩
  obtain ⟨-, power⟩ := permutations_returned depth array array yields counted returned
  obtain ⟨n, size⟩ := Nat.exists_eq_add_of_le many
  have more := factorial_lt_pow n
  rw [whole, size] at power
  rw [size] at length
  have same : (3 + n)! = (3 + n) ^ (3 + n - 1) := length.symm.trans power
  rw [Nat.add_comm 3 n] at same
  exact absurd same (Nat.ne_of_lt more)

/-- One or two elements are exchanged as `permgen` exchanges them. -/
theorem few_run (data : List α) (positive : 0 < data.length) (few : data.length ≤ 2) :
    ∃ yields, permutations 2 ⟨data, data.length, data.length⟩ =
        .ok (yields, ⟨data, data.length, data.length⟩) ∧
      permgen data none = .ok (yields, data) := by
  cases data with
  | nil => exact absurd positive (Nat.lt_irrefl 0)
  | cons first rest =>
    cases rest with
    | nil => exact ⟨_, rfl, rfl⟩
    | cons second rest =>
      cases rest with
      | nil => exact ⟨_, rfl, rfl⟩
      | cons third rest => simp at few

/-- `Permutations` agrees with `permgen` exactly on one or two elements. Proof: from three
elements on there are more yields than permutations. -/
theorem permutations_agree_exactly (array : ArrayType α) (size : array.data.length = array.count)
    (positive : 1 ≤ array.count) (distinct : array.data.Nodup)
    (whole : array.temp = array.count) : AgreesWithPermgen array ↔ array.count ≤ 2 := by
  constructor
  · intro agrees
    by_contra many
    exact many_disagree array ⟨size, positive⟩ whole (Nat.lt_of_not_le many) agrees
  · intro few
    obtain ⟨data, count, temp⟩ := array
    simp only at size positive distinct whole few
    subst whole size
    obtain ⟨yields, run, generated⟩ := few_run data positive few
    obtain ⟨found, enumerates, same⟩ := permgen_whole data distinct
    rw [generated] at same
    cases same
    exact ⟨2, yields, run, generated, enumerates_length data yields distinct enumerates,
      enumerates.distinct, enumerates.exhaustive⟩

/-- The first two numbers. The generator yields both orders of them. The generator is restored as
well. -/
theorem two_agree : AgreesWithPermgen { arrayInit 2 with temp := 2 } :=
  (permutations_agree_exactly { arrayInit 2 with temp := 2 } rfl (by decide) (by decide)
    rfl).mpr (by decide)

/-- The first three numbers have nine yields in place of six. It is the smallest number for which
the two differ. -/
theorem three_disagree : ¬ AgreesWithPermgen { arrayInit 3 with temp := 3 } :=
  many_disagree { arrayInit 3 with temp := 3 } ⟨rfl, by decide⟩ rfl (by decide)

end EffiLib.Permutations
