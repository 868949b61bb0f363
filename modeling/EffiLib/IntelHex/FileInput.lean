import EffiLib.IntelHex.RecordLines

/-!
# Reading a file line by line

`IntelHexFileInput` takes the lines as `fgets` delivers them, so a long line comes in
pieces, and parses one after the other until a line is refused. What the parser looks at
is the C string in the line. It passes over everything that is not a colon and at least
ten more characters; of the others it checks and processes the record in the array.
-/

namespace EffiLib.IntelHex

open Buffers LinkedHeap Segments

/-- The characters of a C string, in front of the first zero. `fgets` does not stop at a zero, so
a line may go on behind it. -/
def cString (text : List u8) : List u8 := text.takeWhile (· ≠ 0)

/-- One call of `fgets`: at most `room` characters, up to and including a newline, and
what remains of the file. -/
def fgets : Nat → List u8 → List u8 × List u8
  | 0, content => ([], content)
  | _ + 1, [] => ([], [])
  | room + 1, ch :: content =>
    if ch = code '\n' then ([ch], content)
    else
      let (line, rest) := fgets room content
      (ch :: line, rest)

/-- Successive calls with the array of 1024 characters, until the file ends. The fuel is the
number of characters, of which every call takes one at least. -/
def readLines : Nat → List u8 → List (List u8)
  | _, [] => []
  | 0, _ => []
  | fuel + 1, content =>
    let (line, rest) := fgets 1023 content
    line :: readLines fuel rest

/-- The lines of a file; each call takes at least one character. So the file is read to its
end. -/
def fileLines (content : List u8) : List (List u8) := readLines content.length content

/-- The lines, each with what the local array of `ParseOneLine` happens to hold. The calls share
no array, and nothing is known about any of the arrays. -/
def numbered (lines : List (List u8)) (arrays : Nat → LocalBuffer) : List (List u8 × LocalBuffer) :=
  lines.mapIdx fun index line => (line, arrays index)

/-- A call delivers a first part of the file, and something of a file that has not ended. So
reading until the end makes progress with each call. -/
theorem fgets_parts (room : Nat) (content : List u8) :
    (fgets room content).1 ++ (fgets room content).2 = content ∧
      (0 < room → content ≠ [] → (fgets room content).1 ≠ []) := by
  induction room generalizing content with
  | zero => simp [fgets]
  | succ room inductionHypothesis =>
    cases content with
    | nil => simp [fgets]
    | cons ch rest =>
      by_cases newline : ch = code '\n'
      · simp [fgets, newline]
      · rw [fgets, if_neg newline]
        exact ⟨congrArg (ch :: ·) (inductionHypothesis rest).1, by simp⟩

/-- The lines are the whole file. Nothing is lost or doubled where a long line is cut. -/
theorem file_lines_whole (content : List u8) : (fileLines content).flatten = content := by
  have read : ∀ (fuel : Nat) (content : List u8), content.length ≤ fuel →
      (readLines fuel content).flatten = content := by
    intro fuel
    induction fuel with
    | zero =>
      intro content few
      rw [List.length_eq_zero_iff.mp (Nat.le_zero.mp few)]
      rfl
    | succ fuel inductionHypothesis =>
      intro content few
      cases content with
      | nil => rfl
      | cons ch rest =>
        obtain ⟨parts, taken⟩ := fgets_parts 1023 (ch :: rest)
        have something := List.length_pos_iff.mpr (taken (by omega) (by simp))
        have lengths := congrArg List.length parts
        rw [List.length_append] at lengths
        rw [readLines, List.flatten_cons, inductionHypothesis _ (by omega), parts]
        simp
  exact read content.length content (Nat.le_refl _)

/-- One call delivers a line and the rest of a file that has not ended; the array is large
enough for any number of further calls. -/
theorem read_lines_fuel (fuel : Nat) (content : List u8) (enough : content.length ≤ fuel) :
    readLines fuel content = fileLines content := by
  have both : ∀ (fuel more : Nat) (content : List u8), content.length ≤ fuel →
      content.length ≤ more → readLines fuel content = readLines more content := by
    intro fuel
    induction fuel with
    | zero =>
      intro more content few _
      rw [List.length_eq_zero_iff.mp (Nat.le_zero.mp few)]
      cases more <;> rfl
    | succ fuel inductionHypothesis =>
      intro more content few others
      cases content with
      | nil => cases more <;> rfl
      | cons ch rest =>
        cases more with
        | zero => simp at others
        | succ more =>
          obtain ⟨parts, taken⟩ := fgets_parts 1023 (ch :: rest)
          have something := List.length_pos_iff.mpr (taken (by omega) (by simp))
          have lengths := congrArg List.length parts
          rw [List.length_append] at lengths
          have following := inductionHypothesis more (fgets 1023 (ch :: rest)).2
            (by rw [List.length_cons] at few lengths; omega)
            (by rw [List.length_cons] at others lengths; omega)
          exact congrArg ((fgets 1023 (ch :: rest)).1 :: ·) following
  exact both fuel content.length content enough (Nat.le_refl _)

/-- A file that has not ended is its first line and the lines of the rest. It is the equation of
the reading loop. -/
theorem file_lines_first (content : List u8) (nonempty : content ≠ []) :
    fileLines content = (fgets 1023 content).1 :: fileLines (fgets 1023 content).2 := by
  obtain ⟨ch, rest, rfl⟩ := List.exists_cons_of_ne_nil nonempty
  obtain ⟨parts, taken⟩ := fgets_parts 1023 (ch :: rest)
  have something := List.length_pos_iff.mpr (taken (by omega) (by simp))
  have lengths := congrArg List.length parts
  rw [List.length_append, List.length_cons] at lengths
  have following := read_lines_fuel rest.length (fgets 1023 (ch :: rest)).2 (by omega)
  exact congrArg ((fgets 1023 (ch :: rest)).1 :: ·) following

/-- A call that did not reach the end of the file delivers the same if the file goes on. One
that did without a newline or a full array goes on as well. -/
theorem fgets_append (room : Nat) (content more : List u8) :
    fgets room (content ++ more) =
      if (fgets room content).1.getLast? = some (code '\n') ∨ (fgets room content).1.length = room
      then ((fgets room content).1, (fgets room content).2 ++ more)
      else (content ++ (fgets (room - content.length) more).1,
        (fgets (room - content.length) more).2) := by
  induction room generalizing content with
  | zero => simp [fgets]
  | succ room inductionHypothesis =>
    cases content with
    | nil => simp [fgets]
    | cons ch rest =>
      by_cases newline : ch = code '\n'
      · simp [fgets, newline]
      · rw [List.cons_append, fgets, if_neg newline, fgets, if_neg newline, inductionHypothesis]
        have last : ∀ line : List u8, (ch :: line).getLast? = some (code '\n') ↔
            line.getLast? = some (code '\n') := by
          intro line
          cases line with
          | nil => exact iff_of_false (fun same => newline (Option.some.inj same)) (by simp)
          | cons next others => rw [List.getLast?_cons_cons]
        simp only [last, List.length_cons, Nat.add_right_cancel_iff, Nat.add_sub_add_right]
        split_ifs <;> rfl

/-- A line that ended with its newline or with the array. What is appended to the file does not
reach into it. -/
def WholeLine (line : List u8) : Prop := line.getLast? = some (code '\n') ∨ line.length = 1023

/-- Whether a line is whole can be decided. -/
instance (line : List u8) : Decidable (WholeLine line) := inferInstanceAs (Decidable (_ ∨ _))

/-- A whole first line stays if the file goes on. What is appended is left for the next call. -/
theorem first_line_kept (content more : List u8) (whole : WholeLine (fgets 1023 content).1) :
    fgets 1023 (content ++ more) =
      ((fgets 1023 content).1, (fgets 1023 content).2 ++ more) :=
  (fgets_append 1023 content more).trans (if_pos whole)

/-- A first line that is not whole is all of the file, and takes in what follows. It has room for
as much as the array has left. -/
theorem first_line_extended (content more : List u8)
    (unfinished : ¬ WholeLine (fgets 1023 content).1) :
    fgets 1023 (content ++ more) =
      (content ++ (fgets (1023 - content.length) more).1,
        (fgets (1023 - content.length) more).2) :=
  (fgets_append 1023 content more).trans (if_neg unfinished)

/-- A file that goes on behind a line has a whole line there. The call has stopped at a newline,
or because the array is full. -/
theorem first_line_whole (content : List u8) (further : (fgets 1023 content).2 ≠ []) :
    WholeLine (fgets 1023 content).1 := by
  by_contra unfinished
  have same := first_line_extended content [] unfinished
  have nothing : ∀ room, (fgets room []).2 = [] := fun room => by cases room <;> rfl
  rw [List.append_nil] at same
  exact further ((congrArg Prod.snd same).trans (nothing _))

/-- No line is read from a file exactly if it is empty. Every line has a character. -/
theorem file_lines_nil (content : List u8) : fileLines content = [] ↔ content = [] := by
  constructor
  · intro nothing
    rw [← file_lines_whole content, nothing]
    rfl
  · rintro rfl
    rfl

/-- Behind whole lines a file goes on with the lines of what follows. This is what makes appending
lines to a file an appending to the list of its lines. -/
theorem file_lines_append (content more : List u8) (lines : List (List u8))
    (read : fileLines content = lines) (whole : ∀ line ∈ lines, WholeLine line) :
    fileLines (content ++ more) = lines ++ fileLines more := by
  induction lines generalizing content with
  | nil => rw [(file_lines_nil content).mp read, List.nil_append, List.nil_append]
  | cons line rest inductionHypothesis =>
    have nonempty : content ≠ [] := by
      intro nothing
      rw [nothing] at read
      simp [fileLines, readLines] at read
    rw [file_lines_first content nonempty] at read
    obtain ⟨first, others⟩ := List.cons.inj read
    have call := first_line_kept content more (first ▸ whole line List.mem_cons_self)
    rw [first] at call
    rw [file_lines_first _ (by simp [nonempty]), call, List.cons_append,
      inductionHypothesis _ others fun other member => whole other (List.mem_cons_of_mem _ member)]

/-- A last line that is not whole takes in what follows. It is the case of a file whose last line
has no newline. -/
theorem file_lines_extended (content more : List u8) (earlier : List (List u8)) (last : List u8)
    (read : fileLines content = earlier ++ [last]) (unfinished : ¬ WholeLine last) :
    fileLines (content ++ more) =
      earlier ++ (last ++ (fgets (1023 - last.length) more).1) ::
        fileLines (fgets (1023 - last.length) more).2 := by
  have nonempty : content ≠ [] := by
    intro nothing
    rw [nothing] at read
    simp [fileLines, readLines] at read
  induction earlier generalizing content with
  | nil =>
    rw [file_lines_first content nonempty, List.nil_append] at read
    obtain ⟨first, others⟩ := List.cons.inj read
    have parts := (fgets_parts 1023 content).1
    rw [first, (file_lines_nil _).mp others, List.append_nil] at parts
    have call := first_line_extended content more (first ▸ unfinished)
    rw [← parts] at call nonempty ⊢
    rw [file_lines_first _ (by simp [nonempty]), call, List.nil_append]
  | cons line earlier inductionHypothesis =>
    rw [file_lines_first content nonempty, List.cons_append] at read
    obtain ⟨first, others⟩ := List.cons.inj read
    have further : (fgets 1023 content).2 ≠ [] := by
      intro nothing
      rw [nothing] at others
      simp [fileLines, readLines] at others
    have call := first_line_kept content more (first_line_whole content further)
    rw [first] at call
    rw [file_lines_first _ (by simp [nonempty]), call, List.cons_append,
      inductionHypothesis _ others further]

/-- `IntelHexFileInput`, for a file that can be opened or not. The content is the one
seen in text mode. -/
def intelHexFileInput (heap : Heap Block) (file : Option (List u8)) (arrays : Nat → LocalBuffer) :
    Run (Option IntelHexFormat × Heap Block) :=
  let (granted, heap) := heap.request
  if granted = false then .ok (none, heap)
  else
    match file with
    | none => .ok (none, heap)
    | some content => do
      let (_, heap, hexFile) ← parseLines heap .fresh (numbered (fileLines content) arrays)
      .ok (some hexFile, heap)

/-! ## Lines as records -/

/-- The lines that are looked at as records. All others are accepted without effect. -/
def IsRecord (line : List u8) : Prop :=
  (cString line).head? = some (code ':') ∧ 11 ≤ (cString line).length

/-- Whether a line spells a record can be decided. -/
instance (line : List u8) : Decidable (IsRecord line) := inferInstanceAs (Decidable (_ ∧ _))

/-- The text that is decoded, without the colon and the last character. Whatever stood there, the
last character is not decoded. -/
def recordText (line : List u8) : List u8 := middle (cString line)

/-- The array the line is decoded to. The bytes the text does not reach are those the array
had. -/
def recordArray (line : List u8) (data : LocalBuffer) : List u8 := decoded data (recordText line)

/-- The payload of a record in the array. The count byte says how long it is. -/
def payloadOf (array : List u8) : List u8 := (array.drop 4).take (array.getD 0 0).toNat

/-- The parser does not look behind the first zero of a line. So the C string of a line is what is
loaded from it. -/
theorem parse_c_string (heap : Heap Block) (hexFile : IntelHexFormat) (line : List u8)
    (data : LocalBuffer) :
    parseOneLine heap hexFile line data = parseOneLine heap hexFile (cString line) data := by
  have same : strlen (cString line) = (cString line).length := by
    rw [strlen, cString, List.takeWhile_idem]
  have prefixed : cString line = line.take (cString line).length :=
    List.prefix_iff_eq_take.mp (line.takeWhile_prefix (· ≠ 0))
  have front :
      line.take ((cString line).length - 1) = (cString line).take ((cString line).length - 1) :=
    calc
      line.take ((cString line).length - 1) =
          (line.take (cString line).length).take ((cString line).length - 1) := by
        rw [List.take_take, Nat.min_eq_left (Nat.sub_le _ _)]
      _ = (cString line).take ((cString line).length - 1) := by rw [← prefixed]
  have head : ∀ ch, ch ≠ 0 → (line.head? = some ch ↔ (cString line).head? = some ch) := by
    intro ch nonzero
    cases line with
    | nil => rfl
    | cons first rest =>
      by_cases zero : first = 0
      · simp [cString, zero, Ne.symm nonzero]
      · simp [cString, zero]
  simp only [parseOneLine, show strlen line = (cString line).length from rfl, same, front, ne_eq,
    head (code '\n') (by decide), head (code ':') (by decide)]

/-- A line that is no record is passed over; a record is checked and processed. It is the one
lemma by which `ParseOneLine` is taken apart. -/
theorem parse_line (heap : Heap Block) (hexFile : IntelHexFormat) (line : List u8)
    (data : LocalBuffer) :
    parseOneLine heap hexFile line data =
      if IsRecord line then
        if TextChecks data (recordText line) then processRecord heap hexFile (recordArray line data)
        else .ok (false, heap, hexFile)
      else .ok (true, heap, hexFile) := by
  rw [parse_c_string]
  by_cases record : IsRecord line
  · obtain ⟨last, parts, long⟩ := line_parts (cString line) record.1 record.2
    have plain : ∀ ch ∈ cString line, ch ≠ 0 :=
      fun ch member => by simpa using List.mem_takeWhile_imp member
    rw [if_pos record, recordArray, recordText]
    rw [parts] at plain
    conv_lhs => rw [parts]
    exact parse_colon_line heap hexFile (middle (cString line)) last data long
      (fun ch member => plain ch (by simp [member])) (plain last (by simp))
  · have whole : strlen (cString line) = (cString line).length := by
      rw [strlen, cString, List.takeWhile_idem]
    rw [if_neg record, parseOneLine, whole]
    by_cases newline : (cString line).head? = some (code '\n')
    · rw [if_pos newline]
    · rw [if_neg newline, if_pos]
      by_contra neither
      rw [not_or, Nat.not_lt, ne_eq, not_not] at neither
      exact record ⟨neither.2, neither.1⟩

/-- The bytes of the address field are those it was made of. So a record is found again in an
array that passed the checks. -/
theorem field_bytes (high low : u8) :
    ((high.toUInt16 * 256 + low.toUInt16) >>> 8).toUInt8 = high ∧
      (high.toUInt16 * 256 + low.toUInt16).toUInt8 = low := by
  have highBound := high.toNat_lt
  have lowBound := low.toNat_lt
  simp only [← UInt8.toNat_inj, UInt16.toNat_toUInt8, UInt16.toNat_shiftRight, UInt16.toNat_add,
    UInt16.toNat_mul, UInt8.toNat_toUInt16, UInt16.reduceToNat, Nat.reduceMod,
    Nat.shiftRight_eq_div_pow]
  omega

/-- An array whose counted bytes sum to zero begins with a record. So an accepted line always
gives a record, even if its text does not spell that record. -/
theorem array_record (first high low kind : u8) (tail : List u8)
    (inside : first.toNat < tail.length)
    (sum : checksum ((first :: high :: low :: kind :: tail).take (first.toNat + 5)) = 0) :
    let array := first :: high :: low :: kind :: tail
    array =
      recordBytes kind (addressField array) (payloadOf array) ++ tail.drop (first.toNat + 1) := by
  intro array
  have payload : payloadOf array = tail.take first.toNat := rfl
  have length : (tail.take first.toNat).length = first.toNat :=
    List.length_take_of_le (Nat.le_of_lt inside)
  obtain ⟨highByte, lowByte⟩ := field_bytes high low
  have body : recordBody kind (addressField array) (tail.take first.toNat) =
      first :: high :: low :: kind :: tail.take first.toNat := by
    rw [recordBody, length, UInt8.ofNat_toNat,
      show addressField array = high.toUInt16 * 256 + low.toUInt16 from rfl, highByte, lowByte]
  have counted : array.take (first.toNat + 5) =
      recordBody kind (addressField array) (tail.take first.toNat) ++ [tail[first.toNat]] := by
    rw [body, show first.toNat + 5 = first.toNat + 1 + 1 + 1 + 1 + 1 by omega]
    simp only [array, List.take_succ_cons, List.cons_append, List.take_append_getElem inside]
  have last : tail[first.toNat] =
      0 - checksum (recordBody kind (addressField array) (tail.take first.toNat)) := by
    rw [counted, checksum_append, checksum_single] at sum
    grind
  rw [payload, recordBytes, ← last, body, List.append_assoc, List.singleton_append,
    ← List.drop_eq_getElem_cons inside]
  simp only [array, List.cons_append, List.take_append_drop]

/-- What passes the text checks is a record with a short payload, in front of bytes
nobody looks at. -/
theorem checked_record (text : List u8) (data : LocalBuffer) (checks : TextChecks data text) :
    let array := decoded data text
    (payloadOf array).length ≤ 251 ∧ ∃ rest,
      array = recordBytes (array.getD 3 0) (addressField array) (payloadOf array) ++ rest := by
  intro array
  obtain ⟨short, count, sum⟩ := checks
  have size : array.length = 256 := decoded_length data text short
  rw [show decoded data text = array from rfl] at count sum
  rw [← count] at sum
  clear_value array
  rcases array with _ | ⟨first, _ | ⟨high, _ | ⟨low, _ | ⟨kind, tail⟩⟩⟩⟩
  case cons.cons.cons.cons =>
    have few : first.toNat + 5 ≤ 256 := by
      rw [List.getD_cons_zero] at count
      omega
    have inside : first.toNat < tail.length := by
      simp only [List.length_cons] at size
      omega
    refine ⟨?_, _, array_record first high low kind tail inside sum⟩
    rw [payloadOf, List.length_take, List.getD_cons_zero]
    omega
  all_goals simp at size

end EffiLib.IntelHex
