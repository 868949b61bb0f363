import EffiLib.Base64.Encoder

/-!
# The base64 decoder

`base64_decode_block` skips every character that has no value. The byte under construction lies
in the buffer for the plain text already, behind the finished bytes, and goes through the state
from one block to the next. The table has one entry less than the test in front of it lets
pass.
-/

namespace EffiLib.Base64

open Buffers Transducers

/-- `base64_decodestep`. It says which character of a group of four comes next. -/
inductive DecodeStep where
  | stepA
  | stepB
  | stepC
  | stepD
deriving DecidableEq, Repr

/-- `base64_decodestate`. `plainchar` holds the bits that are known of the byte under
construction. -/
structure DecodeState where
  step : DecodeStep
  plainchar : char
deriving DecidableEq, Repr

/-- `base64_init_decodestate`. A group begins here. -/
def initDecodestate : DecodeState := ⟨.stepA, 0⟩

/-- The table of `base64_decode_value`. It begins at the character `+` and has 80 entries. -/
def decoding : List Int :=
  [62, -1, -1, -1, 63, 52, 53, 54, 55, 56, 57, 58, 59, 60, 61, -1, -1, -1, -2, -1, -1, -1, 0, 1, 2,
    3, 4, 5, 6, 7, 8, 9, 10, 11, 12, 13, 14, 15, 16, 17, 18, 19, 20, 21, 22, 23, 24, 25, -1, -1,
    -1, -1, -1, -1, 26, 27, 28, 29, 30, 31, 32, 33, 34, 35, 36, 37, 38, 39, 40, 41, 42, 43, 44, 45,
    46, 47, 48, 49, 50, 51]

/-- `base64_decode_value`. The difference is a `char` again. The test lets an index of 80 pass,
where the table has none. -/
def decodeValue (valueIn : char) : Run Int :=
  let valueIn := valueIn - 43
  if valueIn.toInt8 < 0 ∨ valueIn.toInt8 > Int8.ofNat decoding.length then .ok (-1)
  else load decoding valueIn.toNat

/-- The cursor of `base64_decode_block`: the buffer, the place of `plainchar` in it and the
case that comes next. -/
structure Cursor where
  plaintext : List char
  plainchar : Nat
  step : DecodeStep

/-- Set bits of the character under construction. The bits that are set already stay. -/
def Cursor.setBits (cursor : Cursor) (bits : char) : Run Cursor := do
  let old ← load cursor.plaintext cursor.plainchar
  let plaintext ← store cursor.plaintext cursor.plainchar (old ||| bits)
  .ok { cursor with plaintext }

/-- Begin a character with its first bits. What the buffer held there is lost. -/
def Cursor.begin (cursor : Cursor) (bits : char) : Run Cursor := do
  let plaintext ← store cursor.plaintext cursor.plainchar bits
  .ok { cursor with plaintext }

/-- What `base64_decode_block` does with the fragment that ends the inner loop of a case. In three
of the four cases it finishes a byte. -/
def decodeFragment (cursor : Cursor) (fragment : char) : Run Cursor :=
  match cursor.step with
  | .stepA => do
    let cursor ← cursor.begin ((fragment &&& 0x3f) <<< 2)
    .ok { cursor with step := .stepB }
  | .stepB => do
    let cursor ← cursor.setBits ((fragment &&& 0x30) >>> 4)
    let cursor ← ({ cursor with plainchar := cursor.plainchar + 1 } : Cursor).begin
      ((fragment &&& 0x0f) <<< 4)
    .ok { cursor with step := .stepC }
  | .stepC => do
    let cursor ← cursor.setBits ((fragment &&& 0x3c) >>> 2)
    let cursor ← ({ cursor with plainchar := cursor.plainchar + 1 } : Cursor).begin
      ((fragment &&& 0x03) <<< 6)
    .ok { cursor with step := .stepD }
  | .stepD => do
    let cursor ← cursor.setBits (fragment &&& 0x3f)
    .ok { cursor with plainchar := cursor.plainchar + 1, step := .stepA }

/-- One turn of an inner loop: a negative fragment is skipped. The switch goes on in the same case
then. -/
def decodeCase (cursor : Cursor) (codechar : char) : Run Cursor := do
  let fragment ← decodeValue codechar
  if fragment < 0 then .ok cursor else decodeFragment cursor (UInt8.ofNat fragment.toNat)

/-- The loops of `base64_decode_block`. They end with the input. -/
def decodeLoop : List char → Cursor → Run Cursor
  | [], cursor => .ok cursor
  | codechar :: rest, cursor => do
    let cursor ← decodeCase cursor codechar
    decodeLoop rest cursor

/-- `base64_decode_block`: the number of finished characters, the buffer and the state. The byte
under construction is taken from the state and put back into it. -/
def decodeBlock (codeIn plaintextOut : List char) (state : DecodeState) :
    Run (Nat × List char × DecodeState) := do
  let plaintext ← store plaintextOut 0 state.plainchar
  let cursor ← decodeLoop codeIn ⟨plaintext, 0, state.step⟩
  let plainchar ← load cursor.plaintext cursor.plainchar
  .ok (cursor.plainchar, cursor.plaintext, ⟨cursor.step, plainchar⟩)

/-! ## Values of characters -/

/-- The value that a character stands for, when it stands for one. Newlines and `=` have none. -/
def symbolValue (codechar : char) : Option Nat :=
  match decodeValue codechar with
  | .ok value => if value < 0 then none else some value.toNat
  | .error _ => none

/-- The character behind the last one of the table. It is the one for which the table is read
outside. -/
def openBrace : char := 123

/-- Only one character is read outside the table, and every value is below 64. Proof: all 256
characters are tried. -/
theorem decode_value_cases (codechar : char) (inside : codechar ≠ openBrace) :
    (∃ value < 64, decodeValue codechar = .ok (Int.ofNat value)) ∨
      ∃ value < 0, decodeValue codechar = .ok value := by
  have checked : ∀ index : Fin 256, UInt8.ofNat index ≠ openBrace →
      (∃ value : Fin 64, decodeValue (UInt8.ofNat index) = .ok (Int.ofNat value)) ∨
        decodeValue (UInt8.ofNat index) = .ok (-1) ∨
        decodeValue (UInt8.ofNat index) = .ok (-2) := by
    decide +kernel
  have known : UInt8.ofNat codechar.toNat = codechar := UInt8.ofNat_toNat
  rcases checked ⟨codechar.toNat, codechar.toNat_lt⟩ (by rw [known]; exact inside) with
    ⟨value, found⟩ | found | found
  · rw [known] at found
    exact .inl ⟨value, value.isLt, found⟩
  · rw [known] at found
    exact .inr ⟨-1, by decide, found⟩
  · rw [known] at found
    exact .inr ⟨-2, by decide, found⟩

/-- The character behind the table is read outside it. The test and the size of the table disagree
on no other. -/
theorem decode_value_open_brace : decodeValue openBrace = .error .outOfBounds := by decide +kernel

/-- Every symbol has its value. All 64 values are tried. -/
theorem symbol_value_symbol (value : Nat) (small : value < 64) :
    symbolValue (symbol value) = some value ∧ symbol value ≠ openBrace := by
  have checked : ∀ index : Fin 64, symbolValue (symbol index) = some index.val ∧
      symbol index ≠ openBrace := by
    decide +kernel
  exact checked ⟨value, small⟩

/-! ## The transducer of the decoder -/

/-- What the decoder does to one value: numbers instead of masks and shifts. The byte under
construction is only known while there is one. -/
def valueStep (state : DecodeState) (value : Nat) : DecodeState × List char :=
  match state.step with
  | .stepA => (⟨.stepB, UInt8.ofNat (value * 4)⟩, [])
  | .stepB =>
    (⟨.stepC, UInt8.ofNat (value % 16 * 16)⟩, [UInt8.ofNat (state.plainchar.toNat + value / 16)])
  | .stepC =>
    (⟨.stepD, UInt8.ofNat (value % 4 * 64)⟩, [UInt8.ofNat (state.plainchar.toNat + value / 4)])
  | .stepD => (initDecodestate, [UInt8.ofNat (state.plainchar.toNat + value)])

/-- The characters that have a value go through the transducer of the values. The others leave the
state and give nothing out. -/
def decodeStep : DecodeState → char → DecodeState × List char := skipping valueStep symbolValue

/-- How many bits of the byte under construction are not known yet. Within a group they are zero
in the state. -/
def DecodeStep.open : DecodeStep → Nat
  | .stepA => 8
  | .stepB => 2
  | .stepC => 4
  | .stepD => 6

/-- The state of the decoder stands for one of the transducer: there may be any character where
none is under construction, and its unknown bits are clear where one is. -/
structure Stands (state abstract : DecodeState) : Prop where
  step : state.step = abstract.step
  known : abstract.step ≠ .stepA → state.plainchar = abstract.plainchar
  clear : abstract.step ≠ .stepA → abstract.plainchar.toNat % 2 ^ abstract.step.open = 0

/-- The bits of a value, as the masks and shifts select them. Proof: all 64 values are tried. -/
theorem value_bits (value : Nat) (small : value < 64) :
    (UInt8.ofNat value &&& 0x3f) <<< 2 = UInt8.ofNat (value * 4) ∧
      (UInt8.ofNat value &&& 0x30) >>> 4 = UInt8.ofNat (value / 16) ∧
      (UInt8.ofNat value &&& 0x0f) <<< 4 = UInt8.ofNat (value % 16 * 16) ∧
      (UInt8.ofNat value &&& 0x3c) >>> 2 = UInt8.ofNat (value / 4) ∧
      (UInt8.ofNat value &&& 0x03) <<< 6 = UInt8.ofNat (value % 4 * 64) ∧
      UInt8.ofNat value &&& 0x3f = UInt8.ofNat value := by
  have checked : ∀ index : Fin 64,
      (UInt8.ofNat index &&& 0x3f) <<< 2 = UInt8.ofNat (index * 4) ∧
        (UInt8.ofNat index &&& 0x30) >>> 4 = UInt8.ofNat (index / 16) ∧
        (UInt8.ofNat index &&& 0x0f) <<< 4 = UInt8.ofNat (index % 16 * 16) ∧
        (UInt8.ofNat index &&& 0x3c) >>> 2 = UInt8.ofNat (index / 4) ∧
        (UInt8.ofNat index &&& 0x03) <<< 6 = UInt8.ofNat (index % 4 * 64) ∧
        UInt8.ofNat index &&& 0x3f = UInt8.ofNat index := by
    decide +kernel
  exact checked ⟨value, small⟩

/-- Setting bits of the cell behind a front. The cell is the one whose character is under
construction. -/
theorem set_bits_behind (front rest : List char) (cell bits : char) (step : DecodeStep) :
    (⟨front ++ cell :: rest, front.length, step⟩ : Cursor).setBits bits =
      .ok ⟨front ++ (cell ||| bits) :: rest, front.length, step⟩ := by
  rw [Cursor.setBits]
  dsimp only
  rw [load_next front rest cell front.length rfl, ok_bind,
    store_next front rest cell _ front.length rfl, ok_bind]

/-- Beginning a character in the cell behind a front. It is how a character is put into an unused
cell. -/
theorem begin_behind (front rest : List char) (cell bits : char) (step : DecodeStep) :
    (⟨front ++ cell :: rest, front.length, step⟩ : Cursor).begin bits =
      .ok ⟨front ++ bits :: rest, front.length, step⟩ := by
  rw [Cursor.begin]
  dsimp only
  rw [store_next front rest cell _ front.length rfl, ok_bind]

/-- Beginning a character behind a finished one. The pointer moves on when a byte is full. -/
theorem begin_next (front rest : List char) (done next bits : char) (step : DecodeStep) :
    (⟨front ++ done :: next :: rest, front.length + 1, step⟩ : Cursor).begin bits =
      .ok ⟨front ++ done :: bits :: rest, front.length + 1, step⟩ := by
  have begun := begin_behind (front ++ [done]) rest next bits step
  rwa [List.length_append, List.length_singleton, List.append_assoc, List.append_assoc,
    List.singleton_append, List.singleton_append] at begun

/-- A byte is kept in a character. So sums of bits can be computed on numbers. -/
theorem byte_kept (value : Nat) (small : value < 256) : (UInt8.ofNat value).toNat = value :=
  UInt8.toNat_ofNat_of_lt' small

/-- With a fragment of a value the cursor does what the transducer does, as long as there is a
cell for the next character. -/
theorem decode_fragment_steps (front rest : List char) (state abstract : DecodeState) (value : Nat)
    (small : value < 64) (stands : Stands state abstract)
    (room : (valueStep abstract value).2.length ≤ rest.length) :
    ∃ cell tail, decodeFragment ⟨front ++ state.plainchar :: rest, front.length, state.step⟩
        (UInt8.ofNat value) =
          .ok ⟨front ++ (valueStep abstract value).2 ++ cell :: tail,
            front.length + (valueStep abstract value).2.length, (valueStep abstract value).1.step⟩ ∧
      tail.length + (valueStep abstract value).2.length = rest.length ∧
      Stands ⟨(valueStep abstract value).1.step, cell⟩ (valueStep abstract value).1 := by
  obtain ⟨first, upper, second, middle, third, last⟩ := value_bits value small
  have known := stands.known
  have clear := stands.clear
  have byte := abstract.plainchar.toNat_lt
  rw [stands.step]
  cases current : abstract.step with
  | stepA =>
    simp only [valueStep, current, decodeFragment] at room ⊢
    refine ⟨UInt8.ofNat (value * 4), rest, ?_, rfl, rfl, fun _ => rfl, fun _ => ?_⟩
    · rw [first, begin_behind, ok_bind, List.append_nil]
      rfl
    · rw [byte_kept _ (by omega), DecodeStep.open]
      omega
  | stepB =>
    rw [current] at known clear
    have same := known (by decide)
    have aligned := clear (by decide)
    rw [DecodeStep.open] at aligned
    have joined := bits_joined abstract.plainchar (value / 16) 2 aligned (by omega) (by omega)
    simp only [valueStep, current, decodeFragment, List.length_singleton] at room ⊢
    cases rest with
    | nil => exact absurd room (by simp)
    | cons next tail =>
      refine ⟨UInt8.ofNat (value % 16 * 16), tail, ?_, rfl, rfl, fun _ => rfl, fun _ => ?_⟩
      · rw [upper, second, set_bits_behind, ok_bind, same, joined]
        dsimp only
        rw [begin_next, ok_bind, List.append_assoc, List.singleton_append]
      · rw [byte_kept _ (by omega), DecodeStep.open]
        omega
  | stepC =>
    rw [current] at known clear
    have same := known (by decide)
    have aligned := clear (by decide)
    rw [DecodeStep.open] at aligned
    have joined := bits_joined abstract.plainchar (value / 4) 4 aligned (by omega) (by omega)
    simp only [valueStep, current, decodeFragment, List.length_singleton] at room ⊢
    cases rest with
    | nil => exact absurd room (by simp)
    | cons next tail =>
      refine ⟨UInt8.ofNat (value % 4 * 64), tail, ?_, rfl, rfl, fun _ => rfl, fun _ => ?_⟩
      · rw [middle, third, set_bits_behind, ok_bind, same, joined]
        dsimp only
        rw [begin_next, ok_bind, List.append_assoc, List.singleton_append]
      · rw [byte_kept _ (by omega), DecodeStep.open]
        omega
  | stepD =>
    rw [current] at known clear
    have same := known (by decide)
    have aligned := clear (by decide)
    rw [DecodeStep.open] at aligned
    have joined := bits_joined abstract.plainchar value 6 aligned (by omega) (by omega)
    simp only [valueStep, current, decodeFragment, List.length_singleton] at room ⊢
    cases rest with
    | nil => exact absurd room (by simp)
    | cons next tail =>
      refine ⟨next, tail, ?_, rfl, rfl, fun started => absurd rfl started,
        fun started => absurd rfl started⟩
      rw [last, set_bits_behind, ok_bind, same, joined, List.append_assoc, List.singleton_append]
      rfl

/-- A case does with a character what the transducer does, unless it is read outside the table.
The byte under construction stands in the cell behind the finished ones. -/
theorem decode_case_steps (front rest : List char) (state abstract : DecodeState)
    (codechar : char) (inside : codechar ≠ openBrace) (stands : Stands state abstract)
    (room : (decodeStep abstract codechar).2.length ≤ rest.length) :
    ∃ cell tail, decodeCase ⟨front ++ state.plainchar :: rest, front.length, state.step⟩
        codechar = .ok ⟨front ++ (decodeStep abstract codechar).2 ++ cell :: tail,
          front.length + (decodeStep abstract codechar).2.length,
          (decodeStep abstract codechar).1.step⟩ ∧
      tail.length + (decodeStep abstract codechar).2.length = rest.length ∧
      Stands ⟨(decodeStep abstract codechar).1.step, cell⟩ (decodeStep abstract codechar).1 := by
  rcases decode_value_cases codechar inside with ⟨value, small, found⟩ | ⟨value, negative, found⟩
  · have positive : ¬ Int.ofNat value < 0 := not_lt.mpr (Int.natCast_nonneg value)
    have known : symbolValue codechar = some value := by
      rw [symbolValue, found]
      exact if_neg positive
    have taken : decodeStep abstract codechar = valueStep abstract value := by
      rw [decodeStep, skipping, known]
    rw [taken] at room ⊢
    obtain ⟨cell, tail, done, total, after⟩ :=
      decode_fragment_steps front rest state abstract value small stands room
    refine ⟨cell, tail, ?_, total, after⟩
    rw [decodeCase, found, ok_bind, if_neg positive]
    exact done
  · have unknown : symbolValue codechar = none := by
      rw [symbolValue, found]
      exact if_pos negative
    have skipped : decodeStep abstract codechar = (abstract, []) := by
      rw [decodeStep, skipping, unknown]
    rw [skipped]
    refine ⟨state.plainchar, rest, ?_, rfl, rfl, stands.known, stands.clear⟩
    rw [decodeCase, found, ok_bind, if_pos negative, stands.step, List.append_nil]
    rfl

/-- The loops put what the transducer gives out behind a front. Proof: by induction on the
characters, with the finished bytes in the front. -/
theorem decode_loop_drives (input front rest : List char) (state abstract : DecodeState)
    (inside : ∀ codechar ∈ input, codechar ≠ openBrace) (stands : Stands state abstract)
    (room : (drive decodeStep abstract input).2.length ≤ rest.length) :
    ∃ cell tail, decodeLoop input ⟨front ++ state.plainchar :: rest, front.length, state.step⟩ =
        .ok ⟨front ++ (drive decodeStep abstract input).2 ++ cell :: tail,
          front.length + (drive decodeStep abstract input).2.length,
          (drive decodeStep abstract input).1.step⟩ ∧
      tail.length + (drive decodeStep abstract input).2.length = rest.length ∧
      Stands ⟨(drive decodeStep abstract input).1.step, cell⟩
        (drive decodeStep abstract input).1 := by
  induction input generalizing front rest state abstract with
  | nil =>
    refine ⟨state.plainchar, rest, ?_, rfl, rfl, stands.known, stands.clear⟩
    rw [decodeLoop, drive_nil, stands.step, List.append_nil]
    rfl
  | cons codechar input inductionHypothesis =>
    rw [drive, List.length_append] at room
    obtain ⟨cell, tail, done, total, after⟩ := decode_case_steps front rest state abstract codechar
      (inside codechar List.mem_cons_self) stands (by omega)
    obtain ⟨last, others, ran, whole, final⟩ := inductionHypothesis
      (front ++ (decodeStep abstract codechar).2) tail
      ⟨(decodeStep abstract codechar).1.step, cell⟩ _
      (fun other member => inside other (List.mem_cons_of_mem _ member)) after (by omega)
    rw [List.length_append] at ran
    refine ⟨last, others, ?_, ?_, final⟩
    · rw [decodeLoop, done, ok_bind, ran, drive, List.length_append, Nat.add_assoc,
        List.append_assoc front]
    · rw [drive, List.length_append]
      omega

/-- A block whose plain text leaves a cell of the buffer is decoded as by the transducer. The cell
is for the byte under construction. -/
theorem decode_block_drives (input plaintextOut : List char) (state abstract : DecodeState)
    (inside : ∀ codechar ∈ input, codechar ≠ openBrace) (stands : Stands state abstract)
    (room : (drive decodeStep abstract input).2.length < plaintextOut.length) :
    ∃ plaintext after, decodeBlock input plaintextOut state =
        .ok ((drive decodeStep abstract input).2.length, plaintext, after) ∧
      plaintext.length = plaintextOut.length ∧
      plaintext.take (drive decodeStep abstract input).2.length =
        (drive decodeStep abstract input).2 ∧
      Stands after (drive decodeStep abstract input).1 := by
  cases plaintextOut with
  | nil => exact absurd room (Nat.not_lt_zero _)
  | cons old rest =>
    rw [List.length_cons] at room
    obtain ⟨cell, tail, ran, total, after⟩ :=
      decode_loop_drives input [] rest state abstract inside stands (by omega)
    rw [List.nil_append, List.nil_append, List.length_nil, Nat.zero_add] at ran
    have begun : store (old :: rest) 0 state.plainchar = .ok (state.plainchar :: rest) :=
      store_next [] rest old state.plainchar 0 rfl
    have read := load_next (drive decodeStep abstract input).2 tail cell _ rfl
    refine ⟨(drive decodeStep abstract input).2 ++ cell :: tail, _, ?_, ?_, List.take_left, after⟩
    · rw [decodeBlock, begun, ok_bind, ran, ok_bind]
      dsimp only
      rw [read, ok_bind]
    · rw [List.length_append, List.length_cons, List.length_cons]
      omega

/-! ## Room -/

/-- How many values of a group were taken. It is the number of the case. -/
def DecodeState.place (state : DecodeState) : Nat :=
  match state.step with
  | .stepA => 0
  | .stepB => 1
  | .stepC => 2
  | .stepD => 3

/-- Four values give three characters. Proof: by induction on the values, over the four cases. -/
theorem values_length (input : List Nat) (state : DecodeState) :
    (drive valueStep state input).2.length + 3 * state.place / 4 =
      3 * (state.place + input.length) / 4 := by
  induction input generalizing state with
  | nil => rw [drive_nil, List.length_nil, List.length_nil, Nat.zero_add, Nat.add_zero]
  | cons value input inductionHypothesis =>
    have later := inductionHypothesis (valueStep state value).1
    rw [drive, List.length_append, List.length_cons]
    cases current : state.step <;>
      simp only [valueStep, DecodeState.place, initDecodestate, current, List.length_cons,
        List.length_nil] at later ⊢ <;>
      omega

/-- A buffer of the size of the block and of four characters or more leaves a cell. The decoder
writes one character ahead, and that cell is needed for it. -/
theorem plaintext_fits (input : List char) (state : DecodeState) (size : Nat)
    (inside : input.length ≤ size) (large : 4 ≤ size) :
    (drive decodeStep state input).2.length < size := by
  have length := values_length (input.filterMap symbolValue) state
  have fewer := List.length_filterMap_le symbolValue input
  have early : state.place ≤ 3 := by
    rw [DecodeState.place]
    split <;> omega
  rw [decodeStep, drive_skipping]
  omega

/-- A block with the character behind the table stops there. Proof: the characters in front of it
are decoded, and then the table is read outside. -/
theorem decode_loop_stops (input front rest : List char) (state abstract : DecodeState)
    (stands : Stands state abstract)
    (room : (drive decodeStep abstract input).2.length ≤ rest.length)
    (outside : ¬ ∀ codechar ∈ input, codechar ≠ openBrace) :
    decodeLoop input ⟨front ++ state.plainchar :: rest, front.length, state.step⟩ =
      .error .outOfBounds := by
  induction input generalizing front rest state abstract with
  | nil => exact absurd (fun _ member => absurd member List.not_mem_nil) outside
  | cons codechar input inductionHypothesis =>
    by_cases brace : codechar = openBrace
    · rw [decodeLoop, decodeCase, brace, decode_value_open_brace]
      rfl
    · rw [drive, List.length_append] at room
      obtain ⟨cell, tail, done, total, after⟩ := decode_case_steps front rest state abstract
        codechar brace stands (by omega)
      have later := inductionHypothesis (front ++ (decodeStep abstract codechar).2) tail
        ⟨(decodeStep abstract codechar).1.step, cell⟩ _ after (by omega) (by
          intro all
          apply outside
          intro other member
          rcases List.mem_cons.mp member with rfl | member
          · exact brace
          · exact all other member)
      rw [List.length_append] at later
      rw [decodeLoop, done, ok_bind, later]

end EffiLib.Base64
