import EffiLib.Library.Transducers

/-!
# The base64 encoder

`base64_encode_block` goes on where the last block stopped: the state says which character of
a group of three comes next and keeps the bits that are left of the one before. Nineteen groups
make a line. The characters are written behind one another into a buffer of given size. A
`char` is a signed byte.
-/

namespace EffiLib.Base64

open Buffers Transducers

/-- A `char`. It is signed where it is compared. -/
abbrev char := UInt8

/-- `CHARS_PER_LINE`. It is a multiple of four. -/
def charsPerLine : Nat := 76

/-- `base64_encodestep`. It says which character of a group of three comes next. -/
inductive EncodeStep where
  | stepA
  | stepB
  | stepC
deriving DecidableEq, Repr

/-- `base64_encodestate`. `stepcount` counts the groups of a line. -/
structure EncodeState where
  step : EncodeStep
  result : char
  stepcount : Nat
deriving DecidableEq, Repr

/-- `base64_init_encodestate`. A group and a line begin here. -/
def initEncodestate : EncodeState := ⟨.stepA, 0, 0⟩

/-- The table of `base64_encode_value`. It has 64 entries. -/
def encoding : List char :=
  "ABCDEFGHIJKLMNOPQRSTUVWXYZabcdefghijklmnopqrstuvwxyz0123456789+/".toList.map Char.toUInt8

/-- The character `=`. It fills the last group of four. -/
def equalSign : char := '='.toUInt8

/-- The character that ends a line. It comes behind 76 characters and at the end. -/
def newline : char := '\n'.toUInt8

/-- `base64_encode_value`. A negative index is outside the table. The value is compared as a
signed character. -/
def encodeValue (valueIn : char) : Run char :=
  if 63 < valueIn.toInt8 then .ok equalSign
  else if valueIn.toInt8 < 0 then .error .outOfBounds
  else load encoding valueIn.toNat

/-- Write characters through `codechar`, which moves behind them. A write outside of the buffer
faults. -/
def putAll : List char → List char × Nat → Run (List char × Nat)
  | [], out => .ok out
  | ch :: rest, (codeOut, codechar) => do
    let codeOut ← store codeOut codechar ch
    putAll rest (codeOut, codechar + 1)

/-- What `base64_encode_block` does between two of its cases: the state for the next case and
the characters that are written. -/
def encodeCase (state : EncodeState) (fragment : char) : Run (EncodeState × List char) :=
  match state.step with
  | .stepA => do
    let written ← encodeValue ((fragment &&& 0xfc) >>> 2)
    .ok ({ state with step := .stepB, result := (fragment &&& 0x03) <<< 4 }, [written])
  | .stepB => do
    let written ← encodeValue (state.result ||| ((fragment &&& 0xf0) >>> 4))
    .ok ({ state with step := .stepC, result := (fragment &&& 0x0f) <<< 2 }, [written])
  | .stepC => do
    let written ← encodeValue (state.result ||| ((fragment &&& 0xc0) >>> 6))
    let result := fragment &&& 0x3f
    let last ← encodeValue result
    if state.stepcount + 1 = charsPerLine / 4 then
      .ok (⟨.stepA, result, 0⟩, [written, last, newline])
    else .ok (⟨.stepA, result, state.stepcount + 1⟩, [written, last])

/-- The loop of `base64_encode_block`. It goes on in the state that the last block left. -/
def encodeLoop : List char → List char × Nat → EncodeState →
    Run ((List char × Nat) × EncodeState)
  | [], out, state => .ok (out, state)
  | fragment :: rest, out, state => do
    let (state, written) ← encodeCase state fragment
    let out ← putAll written out
    encodeLoop rest out state

/-- `base64_encode_block`: the number of characters written, the buffer and the state. Less than a
group may be left in the state. -/
def encodeBlock (plaintextIn codeOut : List char) (state : EncodeState) :
    Run (Nat × List char × EncodeState) := do
  let ((codeOut, codechar), state) ← encodeLoop plaintextIn (codeOut, 0) state
  .ok (codechar, codeOut, state)

/-- The characters that `base64_encode_blockend` writes. The bits that are left make one more
character. -/
def blockendText (state : EncodeState) : Run (List char) :=
  match state.step with
  | .stepB => do
    let written ← encodeValue state.result
    .ok [written, equalSign, equalSign, newline]
  | .stepC => do
    let written ← encodeValue state.result
    .ok [written, equalSign, newline]
  | .stepA => .ok [newline]

/-- `base64_encode_blockend`: the number of characters written and the buffer. It is called once,
behind the last block. -/
def encodeBlockend (codeOut : List char) (state : EncodeState) : Run (Nat × List char) := do
  let written ← blockendText state
  let (codeOut, codechar) ← putAll written (codeOut, 0)
  .ok (codechar, codeOut)

/-! ## Characters behind one another -/

/-- Characters for which there is room are put behind a front. Behind them the buffer is as
before. -/
theorem put_all_behind (written front rest : List char) (room : written.length ≤ rest.length) :
    putAll written (front ++ rest, front.length) =
      .ok (front ++ written ++ rest.drop written.length, front.length + written.length) := by
  induction written generalizing front rest with
  | nil => rw [putAll, List.append_nil, List.length_nil, List.drop_zero, Nat.add_zero]
  | cons ch written inductionHypothesis =>
    cases rest with
    | nil => exact absurd room (by simp)
    | cons old rest =>
      rw [List.length_cons, List.length_cons] at room
      have next := inductionHypothesis (front ++ [ch]) rest (by omega)
      rw [List.length_append, List.length_singleton, List.append_assoc, List.singleton_append]
        at next
      rw [putAll, store_next front rest old ch front.length rfl, ok_bind, next,
        List.length_cons, List.drop_succ_cons, List.append_assoc front, List.singleton_append,
        Nat.add_right_comm, Nat.add_assoc]

/-! ## The transducer of the encoder -/

/-- The character of a value below 64. The table has one for each of these values. -/
def symbol (value : Nat) : char := encoding.getD value 0

/-- What the encoder does to one character: numbers instead of masks and shifts. It agrees with
the code in states that are ready. -/
def encodeStep (state : EncodeState) (fragment : char) : EncodeState × List char :=
  match state.step with
  | .stepA =>
    ({ state with step := .stepB, result := UInt8.ofNat (fragment.toNat % 4 * 16) },
      [symbol (fragment.toNat / 4)])
  | .stepB =>
    ({ state with step := .stepC, result := UInt8.ofNat (fragment.toNat % 16 * 4) },
      [symbol (state.result.toNat + fragment.toNat / 16)])
  | .stepC =>
    (⟨.stepA, UInt8.ofNat (fragment.toNat % 64), (state.stepcount + 1) % 19⟩,
      [symbol (state.result.toNat + fragment.toNat / 64), symbol (fragment.toNat % 64)] ++
        if state.stepcount + 1 = 19 then [newline] else [])

/-- What the encoder leaves behind a block: the bits that are left are the upper ones of the
next character, and the line is not full. -/
structure EncodeState.Ready (state : EncodeState) : Prop where
  left : state.step = .stepB → state.result.toNat % 16 = 0 ∧ state.result.toNat < 64
  few : state.step = .stepC → state.result.toNat % 4 = 0 ∧ state.result.toNat < 64
  line : state.stepcount < 19

/-- The upper bits of a character, as the masks and shifts select them. All 256 characters are
tried. -/
theorem upper_bits (fragment : char) :
    (fragment &&& 0xfc) >>> 2 = UInt8.ofNat (fragment.toNat / 4) ∧
      (fragment &&& 0xf0) >>> 4 = UInt8.ofNat (fragment.toNat / 16) ∧
      (fragment &&& 0xc0) >>> 6 = UInt8.ofNat (fragment.toNat / 64) := by
  have checked : ∀ index : Fin 256,
      (UInt8.ofNat index &&& 0xfc) >>> 2 = UInt8.ofNat (index / 4) ∧
        (UInt8.ofNat index &&& 0xf0) >>> 4 = UInt8.ofNat (index / 16) ∧
        (UInt8.ofNat index &&& 0xc0) >>> 6 = UInt8.ofNat (index / 64) := by
    decide +kernel
  simpa using checked ⟨fragment.toNat, fragment.toNat_lt⟩

/-- The lower bits of a character. All 256 characters are tried. -/
theorem lower_bits (fragment : char) :
    (fragment &&& 0x03) <<< 4 = UInt8.ofNat (fragment.toNat % 4 * 16) ∧
      (fragment &&& 0x0f) <<< 2 = UInt8.ofNat (fragment.toNat % 16 * 4) ∧
      fragment &&& 0x3f = UInt8.ofNat (fragment.toNat % 64) := by
  have checked : ∀ index : Fin 256,
      (UInt8.ofNat index &&& 0x03) <<< 4 = UInt8.ofNat (index % 4 * 16) ∧
        (UInt8.ofNat index &&& 0x0f) <<< 2 = UInt8.ofNat (index % 16 * 4) ∧
        UInt8.ofNat index &&& 0x3f = UInt8.ofNat (index % 64) := by
    decide +kernel
  simpa using checked ⟨fragment.toNat, fragment.toNat_lt⟩

/-- A small number is kept in a character. So sums of bits can be computed on numbers. -/
theorem number_kept (value : Nat) (small : value < 64) : (UInt8.ofNat value).toNat = value :=
  UInt8.toNat_ofNat_of_lt' (Nat.lt_trans small (by decide))

/-- Every value below 64 has its symbol. The table is not read outside. -/
theorem encode_value_symbol (value : Nat) (small : value < 64) :
    encodeValue (UInt8.ofNat value) = .ok (symbol value) := by
  have checked : ∀ index : Fin 64, encodeValue (UInt8.ofNat index) = .ok (symbol index) := by
    decide +kernel
  exact checked ⟨value, small⟩

/-- Bits put together that do not meet. The or is then a sum. -/
theorem bits_joined (upper : char) (lower width : Nat) (aligned : upper.toNat % 2 ^ width = 0)
    (inside : lower < 2 ^ width) (fits : upper.toNat + lower < 256) :
    upper ||| UInt8.ofNat lower = UInt8.ofNat (upper.toNat + lower) := by
  obtain ⟨quotient, whole⟩ := Nat.dvd_of_mod_eq_zero aligned
  apply UInt8.toNat_inj.mp
  have kept : (UInt8.ofNat lower).toNat = lower :=
    UInt8.toNat_ofNat_of_lt' (show lower < 256 by omega)
  have sum : (UInt8.ofNat (upper.toNat + lower)).toNat = upper.toNat + lower :=
    UInt8.toNat_ofNat_of_lt' fits
  rw [UInt8.toNat_or, kept, sum, whole, Nat.two_pow_add_eq_or_of_lt inside]

/-- Between two cases the encoder does what the transducer does, and stays ready. Proof: by the
three cases, each of them a computation on one byte. -/
theorem encode_case_steps (state : EncodeState) (fragment : char) (ready : state.Ready) :
    encodeCase state fragment = .ok (encodeStep state fragment) ∧
      (encodeStep state fragment).1.Ready := by
  have bound := fragment.toNat_lt
  obtain ⟨upperA, upperB, upperC⟩ := upper_bits fragment
  obtain ⟨lowerA, lowerB, lowerC⟩ := lower_bits fragment
  cases current : state.step with
  | stepA =>
    constructor
    · simp only [encodeCase, encodeStep, current]
      rw [upperA, lowerA, encode_value_symbol _ (by omega), ok_bind]
    · simp only [encodeStep, current]
      have kept := number_kept (fragment.toNat % 4 * 16) (by omega)
      refine ⟨fun _ => ?_, fun other => (by cases other), ready.line⟩
      rw [kept]
      omega
  | stepB =>
    obtain ⟨aligned, small⟩ := ready.left current
    have joined := bits_joined state.result (fragment.toNat / 16) 4 aligned (by omega)
      (by omega)
    constructor
    · simp only [encodeCase, encodeStep, current]
      rw [upperB, lowerB, joined, encode_value_symbol _ (by omega), ok_bind]
    · simp only [encodeStep, current]
      have kept := number_kept (fragment.toNat % 16 * 4) (by omega)
      refine ⟨fun other => (by cases other), fun _ => ?_, ready.line⟩
      rw [kept]
      omega
  | stepC =>
    obtain ⟨aligned, small⟩ := ready.few current
    have line := ready.line
    have groups : charsPerLine / 4 = 19 := rfl
    have joined := bits_joined state.result (fragment.toNat / 64) 2 aligned (by omega)
      (by omega)
    constructor
    · simp only [encodeCase, encodeStep, current]
      rw [upperC, lowerC, joined, encode_value_symbol _ (by omega), ok_bind,
        encode_value_symbol _ (by omega), ok_bind, groups]
      by_cases full : state.stepcount + 1 = 19
      · rw [if_pos full, if_pos full, full]
        rfl
      · have next : (state.stepcount + 1) % 19 = state.stepcount + 1 := Nat.mod_eq_of_lt (by omega)
        rw [if_neg full, if_neg full, next]
        rfl
    · simp only [encodeStep, current]
      exact ⟨fun other => (by cases other), fun other => (by cases other), Nat.mod_lt _ (by decide)⟩

/-- The encoder starts ready. No bits are left over there. -/
theorem init_ready : initEncodestate.Ready :=
  ⟨fun other => (by cases other), fun other => (by cases other), by decide⟩

/-- Behind any block the encoder is ready. So every block of a stream begins in such a state. -/
theorem block_ready (state : EncodeState) (input : List char) (ready : state.Ready) :
    (drive encodeStep state input).1.Ready :=
  drive_keeps encodeStep EncodeState.Ready
    (fun state fragment ready => (encode_case_steps state fragment ready).2) state input ready

/-- The loop puts what the transducer gives out behind a front. Proof: by induction on the
characters. -/
theorem encode_loop_drives (input front rest : List char) (state : EncodeState)
    (ready : state.Ready) (room : (drive encodeStep state input).2.length ≤ rest.length) :
    ∃ tail, encodeLoop input (front ++ rest, front.length) state =
        .ok ((front ++ (drive encodeStep state input).2 ++ tail,
          front.length + (drive encodeStep state input).2.length),
          (drive encodeStep state input).1) ∧
      tail.length + (drive encodeStep state input).2.length = rest.length := by
  induction input generalizing front rest state with
  | nil =>
    refine ⟨rest, ?_, rfl⟩
    rw [encodeLoop, drive_nil, List.append_nil]
    rfl
  | cons fragment input inductionHypothesis =>
    obtain ⟨done, after⟩ := encode_case_steps state fragment ready
    rw [drive, List.length_append] at room
    have put := put_all_behind (encodeStep state fragment).2 front rest (by omega)
    obtain ⟨tail, ran, total⟩ := inductionHypothesis (front ++ (encodeStep state fragment).2)
      (rest.drop (encodeStep state fragment).2.length) (encodeStep state fragment).1 after
      (by rw [List.length_drop]; omega)
    rw [List.length_append] at ran
    refine ⟨tail, ?_, ?_⟩
    · rw [encodeLoop, done, ok_bind]
      dsimp only
      rw [put, ok_bind, ran, drive, List.length_append, Nat.add_assoc, List.append_assoc front]
    · rw [List.length_drop] at total
      rw [drive, List.length_append]
      omega

/-- A block whose characters have room is encoded as by the transducer. The returned length is the
number of these characters, and the others stay. -/
theorem encode_block_drives (input codeOut : List char) (state : EncodeState)
    (ready : state.Ready) (room : (drive encodeStep state input).2.length ≤ codeOut.length) :
    ∃ after, encodeBlock input codeOut state =
        .ok ((drive encodeStep state input).2.length, after, (drive encodeStep state input).1) ∧
      after.length = codeOut.length ∧
      after.take (drive encodeStep state input).2.length = (drive encodeStep state input).2 := by
  obtain ⟨tail, ran, total⟩ := encode_loop_drives input [] codeOut state ready room
  rw [List.nil_append, List.nil_append, List.length_nil, Nat.zero_add] at ran
  refine ⟨_, by rw [encodeBlock, ran]; rfl, ?_, List.take_left⟩
  rw [List.length_append, Nat.add_comm, total]

/-! ## Room -/

/-- How many characters of a line are encoded. A line has 57 of them. -/
def EncodeState.place (state : EncodeState) : Nat :=
  3 * state.stepcount + match state.step with
    | .stepA => 0
    | .stepB => 1
    | .stepC => 2

/-- How many characters are written for so many from the beginning of a line on: one each, one
more for each group and one for each line. -/
def lineLength (count : Nat) : Nat := count + count / 3 + count / 57

/-- How much is written depends on the place in the line only. This is what the size of the buffer
has to be compared with. -/
theorem drive_length (input : List char) (state : EncodeState) (ready : state.Ready) :
    (drive encodeStep state input).2.length + lineLength state.place =
      lineLength (state.place + input.length) := by
  induction input generalizing state with
  | nil => rw [drive_nil, List.length_nil, Nat.zero_add, Nat.add_zero]
  | cons fragment input inductionHypothesis =>
    have later := inductionHypothesis _ (encode_case_steps state fragment ready).2
    have line := ready.line
    rw [drive, List.length_append, List.length_cons]
    cases current : state.step with
    | stepA =>
      simp only [encodeStep, EncodeState.place, lineLength, current, List.length_cons,
        List.length_nil] at later ⊢
      omega
    | stepB =>
      simp only [encodeStep, EncodeState.place, lineLength, current, List.length_cons,
        List.length_nil] at later ⊢
      omega
    | stepC =>
      by_cases full : state.stepcount + 1 = 19
      · simp only [encodeStep, EncodeState.place, lineLength, current, List.length_cons,
          List.length_nil, full, List.length_append, if_true, Nat.mod_self] at later ⊢
        omega
      · simp only [encodeStep, EncodeState.place, lineLength, current, List.length_cons,
          List.length_nil, full, List.length_append, if_false,
          Nat.mod_eq_of_lt (show state.stepcount + 1 < 19 by omega)] at later ⊢
        omega

/-- Two characters of room are enough for each character of a block that is not the shortest. Four
characters are written for three, and a newline for 57. -/
theorem block_fits (input : List char) (state : EncodeState) (ready : state.Ready) (size : Nat)
    (inside : input.length ≤ size) (large : 2 ≤ size) :
    (drive encodeStep state input).2.length ≤ 2 * size := by
  have length := drive_length input state ready
  have line := ready.line
  have early : state.place ≤ 56 := by
    rw [EncodeState.place]
    split <;> omega
  simp only [lineLength] at length
  omega

/-- What ends the text. A newline comes last in each case. -/
def endText (state : EncodeState) : List char :=
  match state.step with
  | .stepA => [newline]
  | .stepB => [symbol state.result.toNat, equalSign, equalSign, newline]
  | .stepC => [symbol state.result.toNat, equalSign, newline]

/-- The end of the text is written into a buffer of four characters or more. The end has four
characters at most. -/
theorem encode_blockend_ends (codeOut : List char) (state : EncodeState) (ready : state.Ready)
    (room : 4 ≤ codeOut.length) :
    ∃ after, encodeBlockend codeOut state = .ok ((endText state).length, after) ∧
      after.take (endText state).length = endText state := by
  have text : blockendText state = .ok (endText state) := by
    have kept : UInt8.ofNat state.result.toNat = state.result := UInt8.ofNat_toNat
    rw [blockendText, endText]
    cases current : state.step with
    | stepA => rfl
    | stepB =>
      have value := encode_value_symbol _ (ready.left current).2
      rw [kept] at value
      dsimp only
      rw [value, ok_bind]
    | stepC =>
      have value := encode_value_symbol _ (ready.few current).2
      rw [kept] at value
      dsimp only
      rw [value, ok_bind]
  have short : (endText state).length ≤ 4 := by
    rw [endText]
    split <;> simp
  have put := put_all_behind (endText state) [] codeOut (by omega)
  rw [List.nil_append, List.nil_append, List.length_nil, Nat.zero_add] at put
  exact ⟨_, by rw [encodeBlockend, text, ok_bind, put]; rfl, List.take_left⟩

end EffiLib.Base64
