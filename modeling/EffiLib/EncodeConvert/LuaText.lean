import EffiLib.Library.Buffers
import EffiLib.Library.CStrings
import EffiLib.Library.WideStrings

/-!
# Texts in Lua strings

The library converts texts between a code page and UTF-16 with functions of the system. A wide
text is handed to Lua as bytes. Lua stores a string with one zero byte behind it, while a wide
text ends at a zero of two bytes, so the byte after the stored string decides whether a wide
text read back from it ends where it should.
-/

namespace EffiLib.EncodeConvert

open Buffers CStrings WideStrings

/-- Bytes and machine words of the source. -/
abbrev u8 := UInt8

/-- A `WCHAR`. A wide text is a list of them. -/
abbrev u16 := UInt16

/-- `CP_ACP` and `CP_UTF8`. The first is the one the system is set to. -/
inductive CodePage where
  | acp
  | utf8
deriving DecidableEq, Repr

/-- What the system's converters make of the characters in front of a terminator. They are
parameters, and what is used of them is stated where it is used. -/
structure Converters where
  multiByteToWideChar : CodePage → List u8 → List u16
  wideCharToMultiByte : CodePage → List u16 → List u8

/-- The body of `AToU` and `U8ToU`: a first call tells the length with the terminator, and a
second one fills the cleared buffer. -/
def toWide (convert : List u8 → List u16) (str : List u8) : Run (List u16) :=
  let converted := convert (contents str) ++ [0]
  let textlen := converted.length
  let result := List.replicate (textlen + 1) 0
  copy result 0 converted textlen

/-- The body of `UToA` and `UToU8`. The converter reads up to a zero unit, which has to come. -/
def toMulti (convert : List u16 → List u8) (str : List u16) : Run (List u8) :=
  if 0 ∈ str then
    let converted := convert (wideContents str) ++ [0]
    let textlen := converted.length
    let result := List.replicate (textlen + 1) 0
    copy result 0 converted textlen
  else .error .outOfBounds

/-- `AToU`. The result ends with a terminator. -/
def aToU (system : Converters) (str : List u8) : Run (List u16) :=
  toWide (system.multiByteToWideChar .acp) str

/-- `UToA`. It reads units up to the first zero. -/
def uToA (system : Converters) (str : List u16) : Run (List u8) :=
  toMulti (system.wideCharToMultiByte .acp) str

/-- `U8ToU`. It differs from `aToU` in the code page only. -/
def u8ToU (system : Converters) (str : List u8) : Run (List u16) :=
  toWide (system.multiByteToWideChar .utf8) str

/-- `UToU8`. It differs from `uToA` in the code page only. -/
def uToU8 (system : Converters) (str : List u16) : Run (List u8) :=
  toMulti (system.wideCharToMultiByte .utf8) str

/-- `CHAR_SCALE`. It is the size of a unit. -/
def charScale : Nat := 2

/-- `lua_pushlstring` of a wide buffer: its bytes as far as `wcslen` goes. The terminator is not
pushed. -/
def pushWide (result : List u16) : List u8 := (bytesOf result).take (wcslen result * charScale)

/-- `lua_pushstring`: the characters in front of the terminator. The terminator is not pushed here
either. -/
def pushString (result : List u8) : List u8 := contents result

/-- `newlstr`: the bytes, one zero byte, and whatever follows in memory. Lua promises the one zero
byte and nothing behind it. -/
def newlstr (str beyond : List u8) : List u8 := str ++ 0 :: beyond

/-- `Unicode_a2u`, from the memory of its argument to the string pushed. The Lua string it pushes
holds units. -/
def unicodeA2u (system : Converters) (str : List u8) : Run (List u8) := do
  let result ← aToU system str
  .ok (pushWide result)

/-- `Unicode_u2a`. The pointer to the string is taken for a pointer to units. The units may run
over the end of the string, where only one zero byte is sure. -/
def unicodeU2a (system : Converters) (str : List u8) : Run (List u8) := do
  let result ← uToA system (unitsOf str)
  .ok (pushString result)

/-- `Unicode_u2u8`. It reads its argument as `unicodeU2a` does. -/
def unicodeU2u8 (system : Converters) (str : List u8) : Run (List u8) := do
  let result ← uToU8 system (unitsOf str)
  .ok (pushString result)

/-- `Unicode_u82u`. It is `unicodeA2u` with the other code page. -/
def unicodeU82u (system : Converters) (str : List u8) : Run (List u8) := do
  let result ← u8ToU system str
  .ok (pushWide result)

/-- `Unicode_a2u8`. The wide text does not become a Lua string. So its terminator is the one that
`AToU` wrote. -/
def unicodeA2u8 (system : Converters) (str : List u8) : Run (List u8) := do
  let temp ← aToU system str
  let result ← uToU8 system temp
  .ok (pushString result)

/-- `Unicode_u82a`. Nor does it become one here. -/
def unicodeU82a (system : Converters) (str : List u8) : Run (List u8) := do
  let temp ← u8ToU system str
  let result ← uToA system temp
  .ok (pushString result)

/-! ## The converters -/

/-- What is documented of the two conversions of a code page on its valid texts: they are
inverse, they make terminators of nothing but terminators, and units behind a whole text are
converted behind it, to something. -/
structure Inverse (toUnits : List u8 → List u16) (toBytes : List u16 → List u8)
    (Valid : List u8 → Prop) : Prop where
  back : ∀ text, Valid text → toBytes (toUnits text) = text
  units : ∀ text, Valid text → (∀ ch ∈ text, ch ≠ 0) → ∀ unit ∈ toUnits text, unit ≠ 0
  bytes : ∀ units, (∀ unit ∈ units, unit ≠ 0) → ∀ ch ∈ toBytes units, ch ≠ 0
  behind : ∀ text more, Valid text → (∀ unit ∈ more, unit ≠ 0) →
    toBytes (toUnits text ++ more) = text ++ toBytes more
  something : ∀ units, units ≠ [] → (∀ unit ∈ units, unit ≠ 0) → toBytes units ≠ []

/-- Valid UTF-8: the encodings of characters, one after the other. An incomplete encoding at the
end is not valid. -/
def ValidUtf8 (text : List u8) : Prop :=
  ∃ characters : List Char, text = characters.flatMap String.utf8EncodeChar

/-- A copy into a cleared buffer with one element more leaves a zero behind it. That is the
terminator of the copied string. -/
theorem copy_cleared {β : Type} (converted : List β) (zero : β) :
    copy (List.replicate (converted.length + 1) zero) 0 converted converted.length =
      .ok (converted ++ [zero]) := by
  have fits : 0 + converted.length ≤ (List.replicate (converted.length + 1) zero).length ∧
      converted.length ≤ converted.length := by
    rw [List.length_replicate]
    omega
  have behind : converted.length + 1 - (0 + converted.length) = 1 := by omega
  rw [copy, if_pos fits, List.take_zero, List.nil_append, List.take_length, List.drop_replicate,
    behind, List.replicate_one]

/-- The wide buffer holds the units and two zeros. One zero is the terminator of the conversion
and the other that of the buffer. -/
theorem to_wide (convert : List u8 → List u16) (str : List u8) :
    toWide convert str = .ok (convert (contents str) ++ [0] ++ [0]) :=
  copy_cleared _ 0

/-- The multi-byte buffer holds the characters and two zeros. One zero is the terminator of the
conversion and the other that of the buffer. -/
theorem to_multi (convert : List u16 → List u8) (str : List u16) (ends : 0 ∈ str) :
    toMulti convert str = .ok (convert (wideContents str) ++ [0] ++ [0]) := by
  rw [toMulti, if_pos ends]
  exact copy_cleared _ 0

/-- Characters without a zero are pushed as they are. `lua_pushstring` measures its argument. -/
theorem push_string (text rest : List u8) (plain : ∀ ch ∈ text, ch ≠ 0) :
    pushString (text ++ 0 :: rest) = text := contents_append_zero text rest plain

/-- Units without a zero are pushed with both bytes each. `lua_pushlstring` is given the length in
bytes. -/
theorem push_wide (units rest : List u16) (nonzero : ∀ unit ∈ units, unit ≠ 0) :
    pushWide (units ++ 0 :: rest) = bytesOf units := by
  have split : bytesOf (units ++ 0 :: rest) = bytesOf units ++ bytesOf (0 :: rest) :=
    List.flatMap_append
  rw [pushWide, wcslen, wide_contents_zero units rest nonzero, split, charScale,
    List.take_left' (bytes_of_length units)]

/-! ## Through a Lua string -/

section Through

variable (toUnits : List u8 → List u16) (toBytes : List u16 → List u8) (Valid : List u8 → Prop)

/-- A text made wide, stored as a Lua string, and read back from it. `before` and `beyond` are
what stands in memory behind the two Lua strings. -/
def through (s before beyond : List u8) : Run (List u8) := do
  let result ← toWide toUnits (newlstr s before)
  let result ← toMulti toBytes (unitsOf (newlstr (pushWide result) beyond))
  .ok (pushString result)

/-- The units that are read back: those of the text and what the memory behind it holds. The
terminator that Lua puts behind a string is one byte, and a unit has two. -/
theorem units_read (s before beyond : List u8) (plain : ∀ ch ∈ s, ch ≠ 0)
    (nonzero : ∀ unit ∈ toUnits s, unit ≠ 0) :
    through toUnits toBytes s before beyond = (do
      let result ← toMulti toBytes (toUnits s ++ unitsOf (0 :: beyond))
      .ok (pushString result)) := by
  have stored : contents (newlstr s before) = s := contents_append_zero s before plain
  rw [through, to_wide, stored, ok_bind, List.append_assoc, List.singleton_append,
    push_wide _ _ nonzero, newlstr, units_of_bytes]

/-- With a zero byte behind the terminator the text comes back. That zero and the terminator make
the unit that ends the wide string. -/
theorem zero_comes_back (inverse : Inverse toUnits toBytes Valid) (s before rest : List u8)
    (valid : Valid s) (plain : ∀ ch ∈ s, ch ≠ 0) :
    through toUnits toBytes s before (0 :: rest) = .ok s := by
  have nonzero := inverse.units s valid plain
  have read : unitsOf (0 :: 0 :: rest) = 0 :: unitsOf rest := rfl
  rw [units_read toUnits toBytes s before _ plain nonzero, read, to_multi toBytes _ (by simp),
    wide_contents_zero _ _ nonzero, inverse.back s valid, ok_bind, List.append_assoc,
    List.singleton_append, push_string s _ plain]

/-- With another byte there the text gets longer, or its end is not found. Proof: the zero and the
other byte make a unit that is not zero, so the text goes on behind them. -/
theorem other_does_not (inverse : Inverse toUnits toBytes Valid) (s before rest : List u8)
    (high : u8) (valid : Valid s) (plain : ∀ ch ∈ s, ch ≠ 0) (other : high ≠ 0) :
    through toUnits toBytes s before (high :: rest) ≠ .ok s := by
  have nonzero := inverse.units s valid plain
  have further : unitOf 0 high ≠ 0 := fun zero => other ((unit_of_zero high).mp zero)
  rw [units_read toUnits toBytes s before _ plain nonzero]
  by_cases ends : 0 ∈ toUnits s ++ unitsOf (0 :: high :: rest)
  · let more := wideContents (unitsOf (0 :: high :: rest))
    have moreNonzero : ∀ unit ∈ more, unit ≠ 0 := fun unit => wide_contents_nonzero _ unit
    have begun : more ≠ [] := by
      have first : more = unitOf 0 high :: wideContents (unitsOf rest) :=
        List.takeWhile_cons_of_pos (by simpa using further)
      rw [first]
      exact List.cons_ne_nil _ _
    have longer := inverse.something more begun moreNonzero
    have plainLonger : ∀ ch ∈ s ++ toBytes more, ch ≠ 0 := by
      intro ch member
      cases List.mem_append.mp member with
      | inl early => exact plain ch early
      | inr late => exact inverse.bytes more moreNonzero ch late
    rw [to_multi toBytes _ ends, wide_contents_append _ _ nonzero,
      inverse.behind s more valid moreNonzero, ok_bind, List.append_assoc (s ++ toBytes more),
      List.singleton_append, push_string _ _ plainLonger]
    intro same
    exact longer (List.append_right_eq_self.mp (Except.ok.inj same))
  · rw [toMulti, if_neg ends, error_bind]
    exact fun same => by cases same

/-- A text comes back through a Lua string exactly when the byte behind the terminator is zero.
The other zero byte is the one that Lua writes. -/
theorem through_exactly (inverse : Inverse toUnits toBytes Valid) (s before beyond : List u8)
    (valid : Valid s) (plain : ∀ ch ∈ s, ch ≠ 0) :
    through toUnits toBytes s before beyond = .ok s ↔ beyond.head? = some 0 := by
  cases beyond with
  | nil =>
    have nonzero := inverse.units s valid plain
    have unread : unitsOf [0] = [] := rfl
    have unended : 0 ∉ toUnits s ++ unitsOf [0] := by
      rw [unread, List.append_nil]
      exact fun member => nonzero 0 member rfl
    rw [units_read toUnits toBytes s before _ plain nonzero, toMulti, if_neg unended, error_bind]
    simp
  | cons high rest =>
    rw [List.head?_cons, Option.some.injEq]
    constructor
    · intro same
      by_contra other
      exact other_does_not toUnits toBytes Valid inverse s before rest high valid plain other same
    · rintro rfl
      exact zero_comes_back toUnits toBytes Valid inverse s before rest valid plain

end Through

/-- `Unicode_u82u` and then `Unicode_u2u8`, with what stands in memory behind each string. The two
calls share nothing but the Lua string. -/
def utf8Through (system : Converters) (s before beyond : List u8) : Run (List u8) := do
  let wide ← unicodeU82u system (newlstr s before)
  unicodeU2u8 system (newlstr wide beyond)

/-- UTF-8 comes back from UTF-16 in a Lua string exactly when the byte behind the terminator is
zero. Proof: the zero that Lua writes and that byte are read as one unit, and the text ends there
only if the unit is zero. -/
theorem utf8_through_exactly (system : Converters)
    (inverse : Inverse (system.multiByteToWideChar .utf8) (system.wideCharToMultiByte .utf8)
      ValidUtf8)
    (s before beyond : List u8) (valid : ValidUtf8 s) (plain : ∀ ch ∈ s, ch ≠ 0) :
    utf8Through system s before beyond = .ok s ↔ beyond.head? = some 0 := by
  have same : utf8Through system s before beyond =
      through (system.multiByteToWideChar .utf8) (system.wideCharToMultiByte .utf8) s before
        beyond := by
    rw [utf8Through, unicodeU82u, u8ToU, through, to_wide, ok_bind, ok_bind, ok_bind]
    rfl
  rw [same]
  exact through_exactly _ _ ValidUtf8 inverse s before beyond valid plain

/-- `Unicode_a2u` and then `Unicode_u2a`. It is the same with the code page of the system. -/
def acpThrough (system : Converters) (s before beyond : List u8) : Run (List u8) := do
  let wide ← unicodeA2u system (newlstr s before)
  unicodeU2a system (newlstr wide beyond)

/-- The other code page has the same condition. The functions for it differ from the others in the
number of the page alone. -/
theorem acp_through_exactly (system : Converters) (Valid : List u8 → Prop)
    (inverse : Inverse (system.multiByteToWideChar .acp) (system.wideCharToMultiByte .acp) Valid)
    (s before beyond : List u8) (valid : Valid s) (plain : ∀ ch ∈ s, ch ≠ 0) :
    acpThrough system s before beyond = .ok s ↔ beyond.head? = some 0 := by
  have same : acpThrough system s before beyond =
      through (system.multiByteToWideChar .acp) (system.wideCharToMultiByte .acp) s before
        beyond := by
    rw [acpThrough, unicodeA2u, aToU, through, to_wide, ok_bind, ok_bind, ok_bind]
    rfl
  rw [same]
  exact through_exactly _ _ Valid inverse s before beyond valid plain

/-- A wide text that does not become a Lua string keeps its own terminator, so nothing in
memory behind the argument matters. -/
theorem direct (toUnits : List u8 → List u16) (toBytes : List u16 → List u8) (s before : List u8)
    (plain : ∀ ch ∈ s, ch ≠ 0) (nonzero : ∀ unit ∈ toUnits s, unit ≠ 0)
    (bytes : ∀ ch ∈ toBytes (toUnits s), ch ≠ 0) :
    (do
      let temp ← toWide toUnits (newlstr s before)
      let result ← toMulti toBytes temp
      .ok (pushString result)) = (.ok (toBytes (toUnits s)) : Run (List u8)) := by
  have stored : contents (newlstr s before) = s := contents_append_zero s before plain
  have ended : toUnits s ++ [0] ++ [0] = toUnits s ++ 0 :: [0] := by simp
  rw [to_wide, stored, ok_bind, to_multi toBytes _ (by simp), ok_bind, ended,
    wide_contents_zero _ _ nonzero, List.append_assoc, List.singleton_append,
    push_string _ _ bytes]

/-- `Unicode_a2u8` and `Unicode_u82a` convert by way of UTF-16 whatever follows in memory. They
hand the wide string on without pushing it, so its terminator is a whole unit. -/
theorem conversions_direct (system : Converters) (s before : List u8) (plain : ∀ ch ∈ s, ch ≠ 0)
    (nonzero : ∀ page, ∀ unit ∈ system.multiByteToWideChar page s, unit ≠ 0)
    (bytes : ∀ page units, (∀ unit ∈ units, unit ≠ 0) →
      ∀ ch ∈ system.wideCharToMultiByte page units, ch ≠ 0) :
    unicodeA2u8 system (newlstr s before) =
        .ok (system.wideCharToMultiByte .utf8 (system.multiByteToWideChar .acp s)) ∧
      unicodeU82a system (newlstr s before) =
        .ok (system.wideCharToMultiByte .acp (system.multiByteToWideChar .utf8 s)) :=
  ⟨direct _ _ s before plain (nonzero .acp) (bytes .utf8 _ (nonzero .acp)),
    direct _ _ s before plain (nonzero .utf8) (bytes .acp _ (nonzero .utf8))⟩

/-! ## An instance -/

/-- The bytes of one unit: itself, as in ASCII, or three bytes of UTF-8. Units in surrogate pairs
are not treated apart. -/
def basicBytes (unit : u16) : List u8 :=
  if unit < 256 then [unit.toUInt8]
  else [(0xE0 : u8) ||| (unit >>> 12).toUInt8, (0x80 : u8) ||| ((unit >>> 6) &&& 0x3F).toUInt8,
    (0x80 : u8) ||| (unit &&& 0x3F).toUInt8]

/-- Converters that do on ASCII texts, and on the units that need three bytes, what the
system's do. -/
def basicConverters : Converters where
  multiByteToWideChar _ text := text.map UInt8.toUInt16
  wideCharToMultiByte _ units := units.flatMap basicBytes

/-- A byte with a bit set is not zero. The bytes of a sequence longer than one are marked so. -/
theorem marked_nonzero (mark ch : u8) (set : mark ≠ 0) : mark ||| ch ≠ 0 := by
  intro zero
  exact set (UInt8.or_eq_zero_iff.mp zero).1

/-- A unit that is not zero has no zero byte. So the bytes of a text have their first zero behind
it. -/
theorem basic_bytes_nonzero (unit : u16) (nonzero : unit ≠ 0) :
    ∀ ch ∈ basicBytes unit, ch ≠ 0 := by
  rw [basicBytes]
  by_cases small : unit < 256
  · rw [if_pos small]
    intro ch member
    rw [List.mem_singleton.mp member]
    intro zero
    have value := congrArg UInt8.toNat zero
    have bound : unit.toNat < 256 := UInt16.lt_iff_toNat_lt.mp small
    rw [UInt16.toNat_toUInt8, Nat.mod_eq_of_lt bound] at value
    exact nonzero (UInt16.toNat_inj.mp value)
  · rw [if_neg small]
    intro ch member
    simp only [List.mem_cons, List.not_mem_nil, or_false] at member
    rcases member with rfl | rfl | rfl
    · exact marked_nonzero _ _ (by decide)
    · exact marked_nonzero _ _ (by decide)
    · exact marked_nonzero _ _ (by decide)

/-- Text behind text is converted behind it. Each of its units gives one byte. -/
theorem basic_back (text : List u8) (more : List u16) :
    (text.map UInt8.toUInt16 ++ more).flatMap basicBytes = text ++ more.flatMap basicBytes := by
  induction text with
  | nil => rfl
  | cons ch text inductionHypothesis =>
    have small : ch.toUInt16 < 256 := by
      rw [UInt16.lt_iff_toNat_lt, UInt8.toNat_toUInt16]
      exact ch.toNat_lt
    rw [List.map_cons, List.cons_append, List.flatMap_cons, inductionHypothesis, basicBytes,
      if_pos small, UInt8.toUInt8_toUInt16]
    rfl

/-- These converters are as documented. They show that what is assumed of the system's converters
can be had. -/
theorem basic_inverse :
    Inverse (basicConverters.multiByteToWideChar .utf8) (basicConverters.wideCharToMultiByte .utf8)
      ValidUtf8 where
  back text _ := by
    have whole := basic_back text []
    rw [List.append_nil, List.flatMap_nil, List.append_nil] at whole
    exact whole
  units text _ plain := by
    intro unit member
    obtain ⟨ch, inside, rfl⟩ := List.mem_map.mp member
    intro zero
    apply plain ch inside
    rw [← UInt8.toUInt8_toUInt16 ch, zero]
    rfl
  bytes units nonzero := by
    intro ch member
    obtain ⟨unit, inside, part⟩ := List.mem_flatMap.mp member
    exact basic_bytes_nonzero unit (nonzero unit inside) ch part
  behind text more _ _ := basic_back text more
  something units nonempty _ := by
    cases units with
    | nil => exact absurd rfl nonempty
    | cons unit units =>
      rw [show basicConverters.wideCharToMultiByte .utf8 (unit :: units) =
        basicBytes unit ++ units.flatMap basicBytes from rfl, basicBytes]
      split_ifs <;> simp

/-- One letter is valid UTF-8. It is encoded in one byte. -/
theorem letter_valid : ValidUtf8 [0x61] := ⟨['a'], by decide⟩

/-- One letter with a zero byte behind its string. The converters are the simple ones. -/
theorem letter_comes_back : utf8Through basicConverters [0x61] [0x21] [0, 0x62] = .ok [0x61] :=
  (utf8_through_exactly basicConverters basic_inverse [0x61] [0x21] [0, 0x62] letter_valid
    (by simp)).mpr rfl

/-- One letter with another letter behind the terminator of its string. Terminator and letter are
read as one more unit. -/
theorem letter_gets_longer :
    Inverse (basicConverters.multiByteToWideChar .utf8) (basicConverters.wideCharToMultiByte .utf8)
      ValidUtf8 ∧ ValidUtf8 [0x61] ∧
    utf8Through basicConverters [0x61] [0x21] [0x62, 0, 0] = .ok [0x61, 0xE6, 0x88, 0x80] :=
  ⟨basic_inverse, letter_valid, by decide +kernel⟩

end EffiLib.EncodeConvert
