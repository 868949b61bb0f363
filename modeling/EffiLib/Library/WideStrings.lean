import Mathlib

/-!
# Strings of 16-bit units in bytes

A unit is stored with its low byte first. A wide string ends in front of the first unit that
is zero, and bytes read as units are a wide string only if such a unit comes.
-/

namespace EffiLib.WideStrings

/-- The two bytes of a unit. The low byte comes first. -/
def unitBytes (unit : UInt16) : List UInt8 := [(unit % 256).toUInt8, (unit / 256).toUInt8]

/-- The bytes of units in order. There are two for each unit. -/
def bytesOf (units : List UInt16) : List UInt8 := units.flatMap unitBytes

/-- The unit in two bytes. It undoes `unitBytes`. -/
def unitOf (low high : UInt8) : UInt16 := low.toUInt16 + 256 * high.toUInt16

/-- Bytes read as units. An odd byte at the end belongs to no unit. -/
def unitsOf : List UInt8 → List UInt16
  | low :: high :: rest => unitOf low high :: unitsOf rest
  | _ => []

/-- The units in front of the first zero. A string without a zero is taken whole. -/
def wideContents (units : List UInt16) : List UInt16 := units.takeWhile (· ≠ 0)

/-- `wcslen`. It counts units, not characters. -/
def wcslen (units : List UInt16) : Nat := (wideContents units).length

/-- A unit is read back from its bytes. A unit is below 2^16, so nothing is lost. -/
theorem unit_of_bytes (unit : UInt16) :
    unitOf (unit % 256).toUInt8 (unit / 256).toUInt8 = unit := by
  have bound := unit.toNat_lt
  apply UInt16.toNat_inj.mp
  simp only [unitOf, UInt16.toNat_add, UInt16.toNat_mul, UInt8.toNat_toUInt16,
    UInt16.toNat_toUInt8, UInt16.toNat_mod, UInt16.toNat_div, UInt16.reduceToNat]
  omega

/-- Units are read back from their bytes, and what follows is read behind them. Proof: by
induction on the units. -/
theorem units_of_bytes (units : List UInt16) (rest : List UInt8) :
    unitsOf (bytesOf units ++ rest) = units ++ unitsOf rest := by
  induction units with
  | nil => rfl
  | cons unit units inductionHypothesis =>
    have first : bytesOf (unit :: units) ++ rest =
        (unit % 256).toUInt8 :: (unit / 256).toUInt8 :: (bytesOf units ++ rest) := rfl
    rw [first, unitsOf, unit_of_bytes, inductionHypothesis, List.cons_append]

/-- A zero byte and another one are the zero unit if the other one is zero too. So a zero byte
alone ends no wide string. -/
theorem unit_of_zero (high : UInt8) : unitOf 0 high = 0 ↔ high = 0 := by
  have bound := high.toNat_lt
  rw [← UInt16.toNat_inj, ← UInt8.toNat_inj]
  simp only [unitOf, UInt16.toNat_add, UInt16.toNat_mul, UInt8.toNat_toUInt16, UInt16.reduceToNat,
    UInt8.reduceToNat]
  omega

/-- There are two bytes for each unit. So the units of a string begin at even places. -/
theorem bytes_of_length (units : List UInt16) : (bytesOf units).length = units.length * 2 := by
  induction units with
  | nil => rfl
  | cons unit units inductionHypothesis =>
    have first : bytesOf (unit :: units) = unitBytes unit ++ bytesOf units := rfl
    have two : (unitBytes unit).length = 2 := rfl
    rw [first, List.length_append, two, inductionHypothesis, List.length_cons]
    omega

/-- Units without a zero in front of other units belong to the string. The rest decides where the
string ends. -/
theorem wide_contents_append (units rest : List UInt16) (nonzero : ∀ unit ∈ units, unit ≠ 0) :
    wideContents (units ++ rest) = units ++ wideContents rest := by
  rw [wideContents, List.takeWhile_append_of_pos (by simpa using nonzero), wideContents]

/-- Units without a zero, followed by one, are the string. What stands behind the zero does not
belong to it. -/
theorem wide_contents_zero (units rest : List UInt16) (nonzero : ∀ unit ∈ units, unit ≠ 0) :
    wideContents (units ++ 0 :: rest) = units := by
  rw [wide_contents_append units _ nonzero, wideContents, List.takeWhile_cons_of_neg (by simp),
    List.append_nil]

/-- No unit of a string is zero. The string is cut at the first zero. -/
theorem wide_contents_nonzero (units : List UInt16) (unit : UInt16)
    (member : unit ∈ wideContents units) : unit ≠ 0 := by
  simpa using List.mem_takeWhile_imp member

end EffiLib.WideStrings
