import EffiLib.Exec.ExecProcess
import EffiLib.Exec.StringBuffer

/-!
# The captured output

`ExecCreateProcess` reads pieces of the output into a cleared buffer and appends the buffer to
the result as a string. Of each piece the bytes in front of its first zero are kept, so two
ways of cutting one output into pieces can differ in what they keep. They cannot when every
zero in the output stands behind all other bytes.
-/

namespace EffiLib.Exec

open Buffers CStrings

/-- `StringInit`, the empty string. It is one character, the terminator. -/
def stringInit : List char := [0]

/-- The size of `buffer`. One byte more than is asked for, so a zero follows every piece. -/
def bufferSize : Nat := 4096

/-- `buffer` after `memset`. It is cleared again behind each piece. -/
def cleared : List char := List.replicate bufferSize 0

/-- The reading loop, with what successive calls of `ReadFile` put into the buffer before one
fails. `fresh` is what the memory gained by `realloc` holds. -/
def readLoop (fresh : Nat → Nat → char) :
    List (List char) → List char → List char → Run (List char)
  | [], _, result => .ok result
  | piece :: pieces, buffer, result => do
    let buffer ← copy buffer 0 piece piece.length
    let result ← stringAppent (fresh pieces.length) result buffer
    readLoop fresh pieces cleared result

/-- The final `*result`. The `realloc` calls may leave any content behind the string. The string
ends at its zero in any case. -/
def captured (fresh : Nat → Nat → char) (pieces : List (List char)) : Run (List char) :=
  readLoop fresh pieces cleared stringInit

/-- Pieces that `ReadFile` can cut a stream into. A read returns one byte at least and as many as
were asked for at most. -/
def Splits (stream : List char) (pieces : List (List char)) : Prop :=
  pieces.flatten = stream ∧ ∀ piece ∈ pieces, 1 ≤ piece.length ∧ piece.length ≤ readSize

/-! ## What is kept -/

/-- What follows the first zero is no part of the string. A buffer that was read into may hold
anything there. -/
theorem contents_before_zero (front rest : List char) :
    contents (front ++ 0 :: rest) = contents front := by
  induction front with
  | nil => rfl
  | cons ch front inductionHypothesis =>
    rw [List.cons_append, contents, List.takeWhile_cons, contents, List.takeWhile_cons]
    by_cases zero : ch = 0
    · simp [zero]
    · simpa [zero, contents] using inductionHypothesis

/-- A piece in a cleared buffer is followed by a zero. The buffer has one byte more than is read
into it. -/
theorem buffer_filled (piece : List char) (short : piece.length ≤ readSize) :
    ∃ zeros, copy cleared 0 piece piece.length = .ok (piece ++ 0 :: zeros) := by
  have room : piece.length < bufferSize := Nat.lt_of_le_of_lt short (by decide)
  have fits : 0 + piece.length ≤ cleared.length ∧ piece.length ≤ piece.length := by
    rw [cleared, List.length_replicate]
    omega
  have behind : bufferSize - (0 + piece.length) = bufferSize - piece.length - 1 + 1 := by omega
  refine ⟨List.replicate (bufferSize - piece.length - 1) 0, ?_⟩
  rw [copy, if_pos fits, List.take_zero, List.nil_append, List.take_length, cleared,
    List.drop_replicate, behind, List.replicate_succ]

/-- The loop keeps the bytes in front of the first zero of every piece. Proof: by induction on the
pieces, each of which is appended as a string. -/
theorem read_loop_exact (fresh : Nat → Nat → char) (pieces : List (List char)) (text : List char)
    (short : ∀ piece ∈ pieces, piece.length ≤ readSize) (plain : ∀ ch ∈ text, ch ≠ 0) :
    readLoop fresh pieces cleared (text ++ [0]) =
      .ok (text ++ pieces.flatMap contents ++ [0]) := by
  induction pieces generalizing text with
  | nil => simp [readLoop]
  | cons piece pieces inductionHypothesis =>
    obtain ⟨zeros, filled⟩ := buffer_filled piece (short piece List.mem_cons_self)
    have appended := string_appent (fresh pieces.length) text piece [] zeros plain
    have kept : ∀ ch ∈ text ++ contents piece, ch ≠ 0 := by
      intro ch member
      cases List.mem_append.mp member with
      | inl early => exact plain ch early
      | inr late => exact contents_nonzero piece ch late
    rw [contents_before_zero] at appended
    rw [readLoop, filled, ok_bind, appended, ok_bind,
      inductionHypothesis _ (fun other member => short other (List.mem_cons_of_mem _ member)) kept,
      List.flatMap_cons, List.append_assoc text]

/-- The final string for the pieces of a stream. Only what stands in front of the first zero of a
piece is appended. -/
theorem captured_exact (fresh : Nat → Nat → char) (stream : List char)
    (pieces : List (List char)) (splits : Splits stream pieces) :
    captured fresh pieces = .ok (pieces.flatMap contents ++ [0]) :=
  read_loop_exact fresh pieces [] (fun piece member => (splits.2 piece member).2) (by simp)

/-! ## Streams and their pieces -/

/-- Behind a zero there are zeros only. A stream without a zero is one of these. -/
def ZerosLast (stream : List char) : Prop :=
  ∀ before byte after, stream = before ++ 0 :: byte :: after → byte = 0

/-- A stream with its zeros at the end has two parts of this kind wherever it is cut. -/
theorem zeros_last_parts (front rest : List char) (last : ZerosLast (front ++ rest)) :
    ZerosLast front ∧ ZerosLast rest := by
  constructor
  · rintro before byte after rfl
    exact last before byte (after ++ rest) (by simp)
  · rintro before byte after rfl
    exact last (front ++ before) byte after (by simp)

/-- The string in such a piece is all its bytes that are not zero. Nothing is lost of it but
zeros. -/
theorem contents_zeros_last (piece : List char) (last : ZerosLast piece) :
    contents piece = piece.filter (· ≠ 0) := by
  induction piece with
  | nil => rfl
  | cons ch rest inductionHypothesis =>
    have tail := inductionHypothesis (zeros_last_parts [ch] rest last).2
    rw [contents, List.takeWhile_cons, List.filter_cons]
    by_cases zero : ch = 0
    · subst zero
      have ended : contents rest = [] := by
        cases rest with
        | nil => rfl
        | cons next rest =>
          rw [last [] next rest rfl]
          rfl
      rw [ended] at tail
      rw [if_neg (by decide), if_neg (by decide)]
      exact tail
    · simpa [zero, contents] using tail

/-- Pieces of such a stream keep together what is not zero, wherever the cuts are. Proof: by
induction on the pieces. -/
theorem pieces_zeros_last (pieces : List (List char)) (last : ZerosLast pieces.flatten) :
    pieces.flatMap contents = pieces.flatten.filter (· ≠ 0) := by
  induction pieces with
  | nil => rfl
  | cons piece pieces inductionHypothesis =>
    obtain ⟨first, others⟩ := zeros_last_parts piece pieces.flatten last
    rw [List.flatMap_cons, contents_zeros_last piece first, inductionHypothesis others,
      List.flatten_cons, List.filter_append]

/-- A stream read byte by byte. Of these reads every byte but zero is kept. -/
def singles (stream : List char) : List (List char) := stream.map fun ch => [ch]

/-- Reading byte by byte is one way to read. No piece of it is too long or empty. -/
theorem singles_split (stream : List char) : Splits stream (singles stream) := by
  constructor
  · induction stream with
    | nil => rfl
    | cons ch rest inductionHypothesis =>
      exact congrArg (ch :: ·) inductionHypothesis
  · intro piece member
    obtain ⟨ch, -, rfl⟩ := List.mem_map.mp member
    simp [readSize]

/-- Byte by byte, everything that is not zero is kept. A zero is then a piece of its own, which is
an empty string. -/
theorem singles_kept (stream : List char) :
    (singles stream).flatMap contents = stream.filter (· ≠ 0) := by
  induction stream with
  | nil => rfl
  | cons ch rest inductionHypothesis =>
    have here : contents [ch] = [ch].filter (· ≠ 0) := by
      by_cases zero : ch = 0 <;> simp [contents, zero]
    have split : (singles (ch :: rest)).flatMap contents =
        contents [ch] ++ (singles rest).flatMap contents := rfl
    rw [split, here, inductionHypothesis, ← List.filter_append, List.singleton_append]

/-- Two bytes read at once, and the others byte by byte. The byte behind the zero is lost by the
first of these reads. -/
def pairAt (before : List char) (byte : char) (after : List char) : List (List char) :=
  singles before ++ [0, byte] :: singles after

/-- Reading a zero and the byte behind it as a pair is another way to read. A zero and the byte
behind it are read together, and all others one by one. -/
theorem pair_split (before : List char) (byte : char) (after : List char) :
    Splits (before ++ 0 :: byte :: after) (pairAt before byte after) := by
  obtain ⟨front, frontSizes⟩ := singles_split before
  obtain ⟨rest, restSizes⟩ := singles_split after
  constructor
  · rw [pairAt, List.flatten_append, List.flatten_cons, front, rest]
    rfl
  · intro piece member
    cases List.mem_append.mp member with
    | inl early => exact frontSizes piece early
    | inr late =>
      cases late with
      | head => simp [readSize]
      | tail _ later => exact restSizes piece later

/-- Reading such a pair loses the byte behind the zero, as the string of the pair ends there. -/
theorem pair_kept (before : List char) (byte : char) (after : List char) :
    (pairAt before byte after).flatMap contents =
      before.filter (· ≠ 0) ++ after.filter (· ≠ 0) := by
  rw [pairAt, List.flatMap_append, List.flatMap_cons, singles_kept, singles_kept]
  rfl

/-- The captured output is independent of the reads exactly when no other byte follows a zero.
Proof: a byte behind a zero is lost when both come in one piece, and kept when they come in
two. -/
theorem capture_independent_exactly (stream : List char) :
    (∀ pieces other fresh fresh', Splits stream pieces → Splits stream other →
        captured fresh pieces = captured fresh' other) ↔ ZerosLast stream := by
  constructor
  · rintro independent before byte after rfl
    by_contra nonzero
    have same := independent _ _ (fun _ _ => 0) (fun _ _ => 0) (singles_split _)
      (pair_split before byte after)
    rw [captured_exact _ _ _ (singles_split _), captured_exact _ _ _ (pair_split before byte after),
      singles_kept, pair_kept] at same
    have lengths := congrArg List.length (Except.ok.inj same)
    simp [nonzero] at lengths
  · intro last pieces other fresh fresh' splits otherSplits
    have kept : pieces.flatMap contents = other.flatMap contents := by
      rw [pieces_zeros_last pieces (by rw [splits.1]; exact last),
        pieces_zeros_last other (by rw [otherSplits.1]; exact last), splits.1, otherSplits.1]
    rw [captured_exact fresh stream pieces splits, captured_exact fresh' stream other otherSplits,
      kept]

/-- Three bytes with a zero in the middle, read in one call or in two. The last byte is in the
result in the second case only. -/
theorem middle_zero_lost :
    Splits [0x61, 0, 0x62] [[0x61, 0, 0x62]] ∧ Splits [0x61, 0, 0x62] [[0x61, 0], [0x62]] ∧
      captured (fun _ _ => 0) [[0x61, 0, 0x62]] = .ok [0x61, 0] ∧
      captured (fun _ _ => 0) [[0x61, 0], [0x62]] = .ok [0x61, 0x62, 0] := by
  have whole : Splits [0x61, 0, 0x62] [[0x61, 0, 0x62]] := ⟨rfl, by simp [readSize]⟩
  have cut : Splits [0x61, 0, 0x62] [[0x61, 0], [0x62]] := ⟨rfl, by simp [readSize]⟩
  exact ⟨whole, cut, captured_exact _ _ _ whole, captured_exact _ _ _ cut⟩

/-! ## The process and its reads -/

/-- How far the output has come: what has been read is cut into pieces, the result holds what
they keep, and the rest is in the pipe or not written yet. -/
structure Delivered (output : List char) (system : System) (pieces : List (List char)) :
    Prop where
  ordered : pieces.flatten ++ system.pipe ++ system.child.getD [] = output
  sizes : ∀ piece ∈ pieces, 1 ≤ piece.length ∧ piece.length ≤ readSize
  early : system.parent = .waiting ∨ (∃ code, system.parent = .closing code) → pieces = []
  kept : ∀ code result, system.parent = .reading code result → result = pieces.flatMap contents
  finished : ∀ code result, system.parent = .returned code result →
    result = pieces.flatMap contents ∧ system.pipe = [] ∧ system.child = none

/-- What the child does while it runs leaves the pieces to the parent. The bytes of the pieces, of
the pipe and of the child are the output in order. -/
theorem child_delivered (output : List char) (system next : System) (pieces : List (List char))
    (delivered : Delivered output system pieces) (running : system.child ≠ none)
    (same : next.parent = system.parent)
    (ordered : pieces.flatten ++ next.pipe ++ next.child.getD [] = output) :
    Delivered output next pieces := by
  refine ⟨ordered, delivered.sizes, ?_, ?_, ?_⟩
  · rw [same]
    exact delivered.early
  · rw [same]
    exact delivered.kept
  · intro code result returned
    rw [same] at returned
    exact absurd (delivered.finished code result returned).2.2 running

/-- A read adds a piece, and every other step keeps the pieces. The pieces are the reads the
parent has made. -/
theorem step_delivered (capacity : Nat) (exitCode : u32) (output : List char)
    (system next : System) (pieces : List (List char)) (delivered : Delivered output system pieces)
    (step : Step capacity exitCode system next) :
    ∃ more, Delivered output next (pieces ++ more) := by
  have ordered := delivered.ordered
  cases step with
  | write byte rest pending room =>
    refine ⟨[], ?_⟩
    rw [List.append_nil]
    refine child_delivered output system _ pieces delivered (by simp [pending]) rfl ?_
    rw [pending] at ordered
    simpa using ordered
  | exit written =>
    refine ⟨[], ?_⟩
    rw [List.append_nil]
    refine child_delivered output system _ pieces delivered (by simp [written]) rfl ?_
    rw [written] at ordered
    simpa using ordered
  | wait waiting exited =>
    have nothing := delivered.early (.inl waiting)
    exact ⟨[], ⟨by simpa using ordered, by simpa using delivered.sizes, by simpa using nothing,
      by simp, by simp⟩⟩
  | close code closing =>
    have nothing := delivered.early (.inr ⟨code, closing⟩)
    exact ⟨[], ⟨by simpa using ordered, by simpa using delivered.sizes, by simp,
      by simp [nothing], by simp⟩⟩
  | read code result count reading moves asked present =>
    have kept := delivered.kept code result reading
    refine ⟨[system.pipe.take count], ⟨?_, ?_, by simp, ?_, by simp⟩⟩
    · rw [List.flatten_append, List.flatten_singleton, List.append_assoc pieces.flatten,
        List.take_append_drop]
      exact ordered
    · intro piece member
      cases List.mem_append.mp member with
      | inl earlier => exact delivered.sizes piece earlier
      | inr last =>
        obtain rfl := List.mem_singleton.mp last
        rw [List.length_take, Nat.min_eq_left present]
        exact ⟨moves, asked⟩
    · intro code' result' same
      obtain ⟨-, rfl⟩ := Parent.reading.inj same
      rw [kept, List.flatMap_append, List.flatMap_singleton]
  | fail code result reading empty closed exited =>
    have kept := delivered.kept code result reading
    refine ⟨[], ⟨by simpa using ordered, by simpa using delivered.sizes, by simp, by simp, ?_⟩⟩
    intro code' result' same
    obtain ⟨-, rfl⟩ := Parent.returned.inj same
    exact ⟨by simpa using kept, empty, exited⟩

/-- What a run returns is what the reading loop captures for some pieces of the output. This
connects the interleavings with the reading loop. -/
theorem returned_captured (capacity : Nat) (exitCode code : u32) (output result : List char)
    (system : System) (reached : Reachable capacity exitCode output system)
    (returned : system.parent = .returned code result) :
    ∃ pieces, Splits output pieces ∧ ∀ fresh, captured fresh pieces = .ok (result ++ [0]) := by
  have delivered : ∃ pieces, Delivered output system pieces := by
    clear returned
    induction reached with
    | refl => exact ⟨[], ⟨rfl, by simp, by simp, by simp [created], by simp [created]⟩⟩
    | tail _ step inductionHypothesis =>
      obtain ⟨pieces, before⟩ := inductionHypothesis
      obtain ⟨more, after⟩ := step_delivered capacity exitCode output _ _ pieces before step
      exact ⟨pieces ++ more, after⟩
  obtain ⟨pieces, delivered⟩ := delivered
  obtain ⟨kept, empty, exited⟩ := delivered.finished code result returned
  have whole : Splits output pieces := by
    refine ⟨?_, delivered.sizes⟩
    have ordered := delivered.ordered
    rw [empty, exited] at ordered
    simpa using ordered
  refine ⟨pieces, whole, ?_⟩
  intro fresh
  rw [captured_exact fresh output pieces whole, kept]

end EffiLib.Exec
