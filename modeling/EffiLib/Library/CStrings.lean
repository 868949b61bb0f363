import Mathlib

/-!
# Strings that end at a zero

A string in memory is what stands in front of the first zero; a list without one is
read as if a zero followed it. `strncpy` fills exactly the given count, with zeros
behind a shorter string and without one behind a longer string.
-/

namespace EffiLib.CStrings

/-- The characters in front of the terminating zero. Without a zero the whole memory is the
string. -/
def contents (memory : List UInt8) : List UInt8 := memory.takeWhile (· ≠ 0)

/-- The bytes of a string literal. Only characters below 256 occur in the literals of the
source. -/
def ascii (text : String) : List UInt8 := text.toList.map fun ch => UInt8.ofNat ch.toNat

/-- `strlen`. It counts the characters in front of the zero. -/
def strlen (memory : List UInt8) : Nat := (contents memory).length

/-- `strncpy` into the front of a target that is large enough. A source as long as the count
leaves no terminating zero, as the C function does. -/
def strncpy (target source : List UInt8) (count : Nat) : List UInt8 :=
  (contents source).take count ++ List.replicate (count - strlen source) 0 ++ target.drop count

/-- No character is zero. The string ends at the first zero. -/
theorem contents_nonzero (memory : List UInt8) (ch : UInt8) (member : ch ∈ contents memory) :
    ch ≠ 0 := by
  simpa using List.mem_takeWhile_imp member

/-- Characters without a zero, followed by one, are read back. What stands behind the zero does
not matter. -/
theorem contents_append_zero (characters rest : List UInt8) (nonzero : ∀ ch ∈ characters, ch ≠ 0) :
    contents (characters ++ 0 :: rest) = characters := by
  rw [contents, List.takeWhile_append_of_pos (by simpa using nonzero)]
  simp

/-- A copy keeps the size of its target. The count has to fit into it. -/
theorem strncpy_length (target source : List UInt8) (count : Nat) (fits : count ≤ target.length) :
    (strncpy target source count).length = target.length := by
  have split : ((contents source).take count ++
      List.replicate (count - strlen source) (0 : UInt8)).length = count := by
    rw [List.length_append, List.length_take, List.length_replicate, strlen]
    omega
  rw [strncpy, List.length_append, split, List.length_drop]
  omega

/-- Behind a copied string of fewer characters than the zeroed target holds comes a zero. A longer
string is cut at the count. -/
theorem strncpy_contents (source : List UInt8) (size count : Nat) (room : count < size) :
    contents (strncpy (List.replicate size 0) source count) = (contents source).take count := by
  obtain ⟨spare, rfl⟩ := Nat.exists_eq_add_of_lt room
  have zeros : List.replicate (count - strlen source) (0 : UInt8) ++
      (List.replicate (count + spare + 1) 0).drop count =
        0 :: List.replicate (count - strlen source + spare) 0 := by
    rw [List.drop_replicate, List.replicate_append_replicate, ← List.replicate_succ]
    congr 1
    omega
  rw [strncpy, List.append_assoc, zeros]
  exact contents_append_zero _ _ fun ch member =>
    contents_nonzero source ch (List.mem_of_mem_take member)

end EffiLib.CStrings
