import EffiLib.Library.Buffers
import EffiLib.Library.CStrings

/-!
# Strings that grow

A string is reallocated to the length it will have. `StringAppent` copies behind its end.
`StringInsert` first moves the tail, from its end to its beginning, because the place it moves
to overlaps the tail, and then writes into the gap. All indices are signed, and none may leave
the reallocated array.
-/

namespace EffiLib.Exec

open Buffers CStrings

/-- A character of a string. Zero ends a string. -/
abbrev char := UInt8

/-- An unsigned value given to an `int`. From 2^31 on it is negative. -/
def int (value : Nat) : Int := (value : Int).bmod (2 ^ 32)

/-- Read at an index of any sign. A negative index is outside of every array. -/
def loadAt (str : List char) (index : Int) : Run char :=
  if index < 0 then .error .outOfBounds else load str index.toNat

/-- Write at an index of any sign. A negative index is outside of every array. -/
def storeAt (str : List char) (index : Int) (ch : char) : Run (List char) :=
  if index < 0 then .error .outOfBounds else store str index.toNat ch

/-- `realloc`: what fits is kept, and what is gained has any content. It does not fail here. -/
def realloc (fresh : Nat → char) (block : List char) (size : Nat) : List char :=
  block.take size ++ (List.range (size - block.length)).map fresh

/-- `strcat`: the characters of the second string and a zero, from the end of the first on. The
terminator of the first string is overwritten. -/
def strcat (first last : List char) : Run (List char) :=
  copy first (strlen first) (contents last ++ [0]) (strlen last + 1)

/-- `StringAppent`. Its `int` becomes a size again when it is passed on. The old block is not used
behind the call. -/
def stringAppent (fresh : Nat → char) (first last : List char) : Run (List char) :=
  let len := strlen first + strlen last + 1
  let first := realloc fresh first len
  strcat first last

/-- The loop of `StringInsert` that moves the tail, for so many passes from `i` on. The last
character of the tail is moved first, as the place it goes to may overlap the tail. -/
def moveTail (insert : List char) (len : Int) : Nat → Int → List char → Run (List char)
  | 0, _, str => .ok str
  | passes + 1, i, str => do
    let ch ← loadAt str (len - i - strlen insert - 1)
    let str ← storeAt str (len - i - 1) ch
    moveTail insert len passes (i + 1) str

/-- The loop of `StringInsert` that writes into the gap, for so many passes from `i` on. It goes
from the beginning of the inserted string to its end. -/
def fillGap (insert : List char) (start : Int) : Nat → Int → List char → Run (List char)
  | 0, _, str => .ok str
  | passes + 1, i, str => do
    let ch ← loadAt insert (i - 1)
    let str ← storeAt str (i + start - 1) ch
    fillGap insert start passes (i + 1) str

/-- `StringInsert`. A start outside of the string is moved to its nearer end. -/
def stringInsert (fresh : Nat → char) (str insert : List char) (start : Int) :
    Run (List char) := do
  let start :=
    if start > int (strlen str) then int (strlen str) else if start < 0 then 0 else start
  let pos := int (strlen str)
  let len := int (strlen str + strlen insert + 1)
  let str := realloc fresh str len.toNat
  let str ← moveTail insert len (pos - start).toNat 1 str
  let str ← fillGap insert start (int (strlen insert)).toNat 1 str
  storeAt str (len - 1) 0

/-! ## Strings in memory -/

/-- Small values are kept. The lengths of strings are taken to be such values. -/
theorem int_small (value : Nat) (small : value < 2 ^ 31) : int value = value := by
  unfold int
  rw [Int.bmod_def]
  omega

/-- The length of a string that ends at its first zero. What stands behind the zero does not
count. -/
theorem strlen_string (s rest : List char) (plain : ∀ ch ∈ s, ch ≠ 0) :
    strlen (s ++ 0 :: rest) = s.length := by
  rw [strlen, contents_append_zero s rest plain]

/-- A string with room behind its end keeps its characters and its terminator. The bytes that are
new are not known. -/
theorem realloc_string (fresh : Nat → char) (s rest : List char) (room : Nat) :
    ∃ more, more.length = room ∧
      realloc fresh (s ++ 0 :: rest) (s.length + room + 1) = s ++ 0 :: more := by
  refine ⟨rest.take room ++
    (List.range (s.length + room + 1 - (s ++ 0 :: rest).length)).map fresh, ?_, ?_⟩
  · simp only [List.length_append, List.length_take, List.length_map, List.length_range,
      List.length_cons]
    omega
  · rw [realloc, Nat.add_assoc, List.take_length_add_append, List.take_succ_cons,
      List.append_assoc, List.cons_append]

/-- An appended string follows the first one, and a zero follows both. The result has exactly the
length it needs. -/
theorem string_appent (fresh : Nat → char) (s t rest behind : List char)
    (plain : ∀ ch ∈ s, ch ≠ 0) :
    stringAppent fresh (s ++ 0 :: rest) (t ++ 0 :: behind) =
      .ok (s ++ contents (t ++ 0 :: behind) ++ [0]) := by
  let last := t ++ 0 :: behind
  have length : (contents last).length = strlen last := rfl
  obtain ⟨more, room, grown⟩ := realloc_string fresh s rest (strlen last)
  rw [stringAppent, strlen_string s rest plain, grown, strcat, strlen_string s more plain]
  have fits : s.length + (strlen last + 1) ≤ (s ++ 0 :: more).length ∧
      strlen last + 1 ≤ (contents last ++ [0]).length := by
    simp only [List.length_append, List.length_cons, List.length_nil, length, room]
    omega
  have taken : (contents last ++ [0]).take (strlen last + 1) = contents last ++ [0] :=
    List.take_of_length_le (by simp [length])
  have dropped : (s ++ 0 :: more).drop (s.length + (strlen last + 1)) = [] :=
    List.drop_of_length_le (by simp [room])
  rw [copy, if_pos fits, List.take_left, taken, dropped, List.append_nil, List.append_assoc]

/-- Reading behind a front at a signed index. The index is the length of the front. -/
theorem load_at_next (front rest : List char) (ch : char) (index : Int)
    (behind : index = front.length) : loadAt (front ++ ch :: rest) index = .ok ch := by
  subst behind
  rw [loadAt, if_neg (by omega), load_next front rest ch _ (by simp)]

/-- Writing behind a front at a signed index. The index is the length of the front. -/
theorem store_at_next (front rest : List char) (old ch : char) (index : Int)
    (behind : index = front.length) :
    storeAt (front ++ old :: rest) index ch = .ok (front ++ ch :: rest) := by
  subst behind
  rw [storeAt, if_neg (by omega), store_next front rest old ch _ (by simp)]

/-! ## The loops of the insertion -/

/-- Moving the tail opens a gap of the same width in front of it. The induction takes the
characters from the end, as the loop does: a character is written where the gap ended, and
the gap then ends in front of it. -/
theorem move_tail_exact (insert head moved gap tail : List char) (last : char) (len i : Int)
    (width : gap.length = strlen insert) (counted : i = tail.length + 1)
    (size : len = head.length + moved.length + gap.length + tail.length + 1) :
    ∃ opened : List char, opened.length = gap.length ∧
      moveTail insert len moved.length i (head ++ moved ++ gap ++ tail ++ [last]) =
        .ok (head ++ opened ++ moved ++ tail ++ [last]) := by
  induction moved using List.reverseRecOn generalizing gap tail i with
  | nil => exact ⟨gap, rfl, by rw [List.length_nil, moveTail]; simp⟩
  | append_singleton moved ch inductionHypothesis =>
    obtain ⟨shifted, old, split⟩ : ∃ shifted old, ch :: gap = shifted ++ [old] :=
      ⟨_, _, (List.dropLast_append_getLast (List.cons_ne_nil ch gap)).symm⟩
    have shiftedWidth : shifted.length = gap.length := by
      have lengths := congrArg List.length split
      simpa using lengths.symm
    simp only [List.length_append, List.length_cons, List.length_nil] at size
    obtain ⟨opened, openedWidth, looped⟩ := inductionHypothesis shifted (ch :: tail) (i + 1)
      (shiftedWidth.trans width) (by rw [List.length_cons, counted]; omega)
      (by rw [List.length_cons, shiftedWidth]; omega)
    have source : head ++ (moved ++ [ch]) ++ gap ++ tail ++ [last] =
        (head ++ moved) ++ ch :: (gap ++ tail ++ [last]) := by simp
    have target : head ++ (moved ++ [ch]) ++ gap ++ tail ++ [last] =
        (head ++ moved ++ shifted) ++ old :: (tail ++ [last]) := by
      have regroup : head ++ (moved ++ [ch]) ++ gap ++ tail ++ [last] =
          head ++ moved ++ (ch :: gap) ++ tail ++ [last] := by simp
      rw [regroup, split]
      simp
    have read : loadAt (head ++ (moved ++ [ch]) ++ gap ++ tail ++ [last])
        (len - i - strlen insert - 1) = .ok ch := by
      rw [source]
      exact load_at_next _ _ _ _ (by rw [List.length_append]; omega)
    have written : storeAt (head ++ (moved ++ [ch]) ++ gap ++ tail ++ [last]) (len - i - 1) ch =
        .ok (head ++ moved ++ shifted ++ (ch :: tail) ++ [last]) := by
      rw [target, store_at_next _ _ _ _ _ (by simp only [List.length_append]; omega)]
      simp
    refine ⟨opened, openedWidth.trans shiftedWidth, ?_⟩
    rw [List.length_append, List.length_singleton, moveTail, read, ok_bind, written, ok_bind,
      looped]
    simp

/-- Filling the gap writes the characters in order. Proof: by induction on the characters that
remain. -/
theorem fill_gap_exact (done remaining behind head gap tail : List char) (start i : Int)
    (width : gap.length = remaining.length) (counted : i = done.length + 1)
    (begins : start = head.length) :
    fillGap (done ++ remaining ++ behind) start remaining.length i (head ++ done ++ gap ++ tail) =
      .ok (head ++ done ++ remaining ++ tail) := by
  induction remaining generalizing done gap i with
  | nil =>
    have empty : gap = [] := List.eq_nil_of_length_eq_zero width
    rw [List.length_nil, fillGap, empty]
  | cons ch remaining inductionHypothesis =>
    cases gap with
    | nil => simp at width
    | cons old gap =>
      have read : loadAt (done ++ ch :: remaining ++ behind) (i - 1) = .ok ch := by
        rw [List.append_assoc, List.cons_append]
        exact load_at_next _ _ _ _ (by omega)
      have written : storeAt (head ++ done ++ old :: gap ++ tail) (i + start - 1) ch =
          .ok (head ++ (done ++ [ch]) ++ gap ++ tail) := by
        rw [List.append_assoc, List.cons_append,
          store_at_next _ _ _ _ _ (by rw [List.length_append]; omega)]
        simp
      have later := inductionHypothesis (done ++ [ch]) gap (i + 1) (by simpa using width)
        (by simp only [List.length_append, List.length_singleton]; omega)
      have regroup : done ++ ch :: remaining ++ behind = done ++ [ch] ++ remaining ++ behind := by
        simp
      rw [List.length_cons, fillGap, read, ok_bind, written, ok_bind, regroup, later]
      simp

/-! ## Splicing -/

/-- A start moved into the string. A negative start is the beginning, and one behind the end is
the end. -/
def clamped (start : Int) (length : Nat) : Nat := (max 0 (min start length)).toNat

/-- The first characters, the inserted string and the other characters, with a zero behind. It is
what an insertion should give. -/
def spliced (s t : List char) (position : Nat) : List char :=
  s.take position ++ t ++ s.drop position ++ [0]

/-- The start that `StringInsert` works with. It is the given one, brought between zero and the
length. -/
theorem start_clamped (start : Int) (length : Nat) :
    (if start > length then (length : Int) else if start < 0 then 0 else start) =
      clamped start length := by
  rw [clamped]
  split_ifs <;> omega

/-- `StringInsert` on strings whose lengths are no problem for an `int`. Proof: the moved tail
stands in its place behind the first loop, and the second one fills what lies between. -/
theorem string_insert (fresh : Nat → char) (s t rest behind : List char) (start : Int)
    (plain : ∀ ch ∈ s, ch ≠ 0) (plainInsert : ∀ ch ∈ t, ch ≠ 0)
    (short : s.length + t.length < 2 ^ 31 - 1) :
    stringInsert fresh (s ++ 0 :: rest) (t ++ 0 :: behind) start =
      .ok (spliced s t (clamped start s.length)) := by
  let position := clamped start s.length
  let head := s.take position
  let moved := s.drop position
  have inside : position ≤ s.length := by
    simp only [position, clamped]
    omega
  have headLength : head.length = position := List.length_take_of_le inside
  have movedLength : moved.length = s.length - position := List.length_drop
  have parts : head ++ moved = s := List.take_append_drop position s
  have insertLength : strlen (t ++ 0 :: behind) = t.length := strlen_string t behind plainInsert
  obtain ⟨more, room, grown⟩ := realloc_string fresh s rest t.length
  -- The last character is written over at the end, the others in front of it are the gap.
  obtain ⟨gap, last, split⟩ : ∃ gap last, 0 :: more = gap ++ [last] :=
    ⟨_, _, (List.dropLast_append_getLast (List.cons_ne_nil 0 more)).symm⟩
  have width : gap.length = t.length := by
    have lengths := congrArg List.length split
    simp only [List.length_cons, List.length_append, List.length_nil, room] at lengths
    omega
  obtain ⟨opened, openedWidth, shifted⟩ := move_tail_exact (t ++ 0 :: behind) head moved gap []
    last (s.length + t.length + 1 : Nat) 1 (width.trans insertLength.symm) (by simp)
    (by simp only [headLength, movedLength, width, List.length_nil]; omega)
  have filled := fill_gap_exact [] t (0 :: behind) head opened (moved ++ [last]) position 1
    (openedWidth.trans width) (by simp) (by rw [headLength])
  have array : s ++ 0 :: more = head ++ moved ++ gap ++ [] ++ [last] := by
    rw [split, parts, List.append_nil, List.append_assoc]
  have closed : storeAt (head ++ [] ++ t ++ (moved ++ [last]))
      ((s.length + t.length + 1 : Nat) - 1) 0 = .ok (spliced s t position) := by
    have regroup : head ++ [] ++ t ++ (moved ++ [last]) = (head ++ t ++ moved) ++ last :: [] := by
      simp
    rw [regroup, store_at_next _ _ _ _ _ (by
      simp only [List.length_append, headLength, movedLength]; omega), spliced]
  have passes : ((s.length : Int) - position).toNat = moved.length := by omega
  have between : head ++ opened ++ moved ++ [] ++ [last] =
      head ++ [] ++ opened ++ (moved ++ [last]) := by simp
  rw [stringInsert]
  simp only [strlen_string s rest plain, insertLength, int_small s.length (by omega),
    int_small t.length (by omega), int_small (s.length + t.length + 1) (by omega),
    Int.toNat_natCast, start_clamped, grown, array]
  rw [passes, shifted, ok_bind, between]
  simp only [List.nil_append] at filled
  rw [filled, ok_bind, closed]

/-- `StringInsert` splices, and behind the end it appends. Proof: the start is moved into the
string first, and from there both loops stay inside the reallocated array. -/
theorem string_insert_splices (fresh : Nat → char) (s t rest behind : List char) (start : Int)
    (plain : ∀ ch ∈ s, ch ≠ 0) (plainInsert : ∀ ch ∈ t, ch ≠ 0)
    (short : s.length + t.length < 2 ^ 31 - 1) :
    stringInsert fresh (s ++ 0 :: rest) (t ++ 0 :: behind) start =
        .ok (spliced s t (clamped start s.length)) ∧
      (s.length ≤ start → stringInsert fresh (s ++ 0 :: rest) (t ++ 0 :: behind) start =
        stringAppent fresh (s ++ 0 :: rest) (t ++ 0 :: behind)) := by
  have whole := string_insert fresh s t rest behind start plain plainInsert short
  refine ⟨whole, ?_⟩
  intro beyond
  have atEnd : clamped start s.length = s.length := by
    rw [clamped, Int.min_eq_right beyond]
    omega
  rw [whole, string_appent fresh s t rest behind plain, contents_append_zero t behind plainInsert,
    spliced, atEnd, List.take_length, List.drop_length, List.append_nil]

/-- A character into the middle of two. The result has three characters and its zero. -/
theorem inserted_between : stringInsert (fun _ => 7) [0x61, 0x62, 0] [0x63, 0] 1 =
      .ok [0x61, 0x63, 0x62, 0] ∧
    (2 ≤ (1 : Int) → stringInsert (fun _ => 7) [0x61, 0x62, 0] [0x63, 0] 1 =
      stringAppent (fun _ => 7) [0x61, 0x62, 0] [0x63, 0]) :=
  string_insert_splices (fun _ => 7) [0x61, 0x62] [0x63] [] [] 1 (by simp) (by simp)
    (by decide)

end EffiLib.Exec
