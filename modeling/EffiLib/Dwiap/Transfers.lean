import EffiLib.Dwiap.UpdateImage

/-!
# Transfers of an update file

The reading loop ends at the first chunk that is not full, and every write takes what the
outside accepts. A run that returns 1 has written the complete image exactly when every
`fread` delivered what was left of the file, up to a chunk, and every `fwrite` took what it
was given.
-/

namespace EffiLib.Dwiap

open Buffers CStrings

/-! ## Reading -/

/-- What a read moves is there and fits in a chunk. So it fits into the chunk that was added to
the buffer. -/
theorem read_count_bounds (env : Environment) (call left : Nat) :
    readCount env call left ≤ left ∧ readCount env call left ≤ chunkSize :=
  ⟨(Nat.min_le_right _ _).trans (Nat.min_le_right _ _),
    (Nat.min_le_right _ _).trans (Nat.min_le_left _ _)⟩

/-- The read with this number delivers a full chunk. The loop goes on behind such a read only. -/
def FullChunk (env : Environment) (size call : Nat) : Prop :=
  readCount env call (size - chunkSize * call) = chunkSize

/-- The read with this number is not made in a buffer of its own: memory is refused, or
`file_buf_size` wraps. -/
def Stops (env : Environment) (call : Nat) : Prop :=
  env.grantsChunk call = false ∨ 2 ^ 32 ≤ chunkSize * (call + 1)

/-- A full chunk was there to be read. So the place behind it is in the file as well. -/
theorem full_chunk_inside (env : Environment) (size call : Nat) (full : FullChunk env size call) :
    chunkSize * (call + 1) ≤ size := by
  obtain ⟨bounded, -⟩ := read_count_bounds env call (size - chunkSize * call)
  rw [full] at bounded
  simp only [chunkSize] at bounded ⊢
  omega

/-- The read calls that were made before the one that ended the loop, and what the loop
left. -/
def ReadOutcome (env : Environment) (content : List u8) (call : Nat)
    (result : Run (Option (List u8 × u32))) : Prop :=
  ∃ last, call ≤ last ∧ chunkSize * last ≤ content.length ∧
    (∀ other, call ≤ other → other < last → FullChunk env content.length other ∧
      ¬ Stops env other) ∧
    ((Stops env last ∧ (result = .ok none ∨ result = .error .outOfBounds)) ∨
      (¬ Stops env last ∧ ¬ FullChunk env content.length last ∧
        let total := chunkSize * last + readCount env last (content.length - chunkSize * last)
        ∃ fileBuf, result = .ok (some (fileBuf, UInt32.ofNat total)) ∧ total ≤ fileBuf.length ∧
          fileBuf.take total = content.take total))

/-- One more full chunk in front of the outcome. It is how the induction over the loop goes from a
call to the one before. -/
theorem read_outcome_earlier (env : Environment) (content : List u8) (call : Nat)
    (result : Run (Option (List u8 × u32))) (full : FullChunk env content.length call)
    (running : ¬ Stops env call) (later : ReadOutcome env content (call + 1) result) :
    ReadOutcome env content call result := by
  obtain ⟨last, reached, inside, earlier, ending⟩ := later
  refine ⟨last, Nat.le_of_succ_le reached, inside, ?_, ending⟩
  intro other late early
  rcases Nat.eq_or_lt_of_le late with rfl | later
  · exact ⟨full, running⟩
  · exact earlier other later early

/-- The reading loop from one chunk on, with the chunks in front of it in the buffer. Each pass
makes one chunk more of it. -/
def readFrom (env : Environment) (content : List u8) (fuel call : Nat) :
    Run (Option (List u8 × u32)) :=
  readLoop env fuel call (content.drop (chunkSize * call)) (content.take (chunkSize * call))
    (UInt32.ofNat (chunkSize * call)) (UInt32.ofNat (chunkSize * call))

/-- The size of the buffer with one more chunk. Both sums are taken modulo 2^32, so they agree
also where they wrap. -/
theorem grown_size (call : Nat) :
    UInt32.ofNat (chunkSize * call) + UInt32.ofNat chunkSize =
      UInt32.ofNat (chunkSize * (call + 1)) := by
  rw [Nat.mul_succ, UInt32.ofNat_add]

/-- Without memory for a chunk the loop yields nothing, or the chunk would leave a buffer
whose size has wrapped. -/
theorem read_from_stops (env : Environment) (content : List u8) (fuel call : Nat)
    (inside : chunkSize * call ≤ content.length) (small : chunkSize * call < 2 ^ 32)
    (stops : Stops env call) :
    readFrom env content (fuel + 1) call = .ok none ∨
      readFrom env content (fuel + 1) call = .error .outOfBounds := by
  have fileLen : (UInt32.ofNat (chunkSize * call)).toNat = chunkSize * call :=
    UInt32.toNat_ofNat_of_lt' small
  have filled : (content.take (chunkSize * call)).length = chunkSize * call :=
    List.length_take_of_le inside
  rw [readFrom, readLoop, grown_size]
  by_cases refused : env.grantsChunk call = false
  · left
    rw [if_pos refused]
  · -- The new size is the remainder, below the place where the chunk would go.
    right
    have wraps : 2 ^ 32 ≤ chunkSize * (call + 1) := stops.resolve_left refused
    have overrun := short_copy (content.take (chunkSize * call))
      (content.drop (chunkSize * call)) (UInt32.ofNat (chunkSize * (call + 1))).toNat
      (readCount env call (content.drop (chunkSize * call)).length) env.garbage (by
        rw [filled, UInt32.toNat_ofNat', Nat.mul_succ]
        simp only [chunkSize] at small wraps ⊢
        omega)
    rw [filled] at overrun
    rw [if_neg refused]
    dsimp only
    rw [fileLen, overrun, error_bind]

/-- With memory for a chunk the loop goes on behind a full one and ends with a short one. A short
chunk is how the source sees the end of the file. -/
theorem read_from_step (env : Environment) (content : List u8) (fuel call : Nat)
    (inside : chunkSize * call ≤ content.length) (small : chunkSize * call < 2 ^ 32)
    (running : ¬ Stops env call) :
    (FullChunk env content.length call →
      readFrom env content (fuel + 1) call = readFrom env content fuel (call + 1)) ∧
    (¬ FullChunk env content.length call →
      ∃ count spare, count = readCount env call (content.length - chunkSize * call) ∧
        readFrom env content (fuel + 1) call =
          .ok (some (content.take (chunkSize * call + count) ++ spare,
            UInt32.ofNat (chunkSize * call + count)))) := by
  obtain ⟨granted, fits⟩ := not_or.mp running
  have fileLen : (UInt32.ofNat (chunkSize * call)).toNat = chunkSize * call :=
    UInt32.toNat_ofNat_of_lt' small
  have bufSize : (UInt32.ofNat (chunkSize * (call + 1))).toNat = chunkSize * call + chunkSize := by
    rw [UInt32.toNat_ofNat_of_lt' (Nat.lt_of_not_le fits), Nat.mul_succ]
  have left : (content.drop (chunkSize * call)).length = content.length - chunkSize * call :=
    List.length_drop
  have filled : (content.take (chunkSize * call)).length = chunkSize * call :=
    List.length_take_of_le inside
  obtain ⟨within, short⟩ := read_count_bounds env call (content.length - chunkSize * call)
  generalize counted : readCount env call (content.length - chunkSize * call) = count
    at within short
  have taken := grow_copy_part (content.take (chunkSize * call))
    (content.drop (chunkSize * call)) chunkSize count env.garbage short (by rwa [left])
  rw [filled, ← List.take_add] at taken
  rw [readFrom, readLoop, grown_size, left, if_neg granted]
  dsimp only
  rw [fileLen, bufSize, counted, taken, ok_bind, FullChunk, counted]
  constructor
  · intro full
    rw [if_pos full, full, Nat.sub_self, List.replicate_zero, List.append_nil, List.drop_drop,
      grown_size, ← Nat.mul_succ]
    rfl
  · intro full
    rw [if_neg full, ← UInt32.ofNat_add]
    exact ⟨count, _, rfl, rfl⟩

/-- The reading loop from any chunk on. Before a chunk is read the buffer holds exactly the
chunks in front of it; the induction is on the fuel, which counts the chunks still there. -/
theorem read_loop_cases (env : Environment) (content : List u8) (fuel call : Nat)
    (enough : content.length / chunkSize < call + fuel) (inside : chunkSize * call ≤ content.length)
    (small : chunkSize * call < 2 ^ 32) :
    ReadOutcome env content call (readFrom env content fuel call) := by
  induction fuel generalizing call with
  | zero =>
    have reached : call ≤ content.length / chunkSize :=
      (Nat.le_div_iff_mul_le (by decide)).mpr (by rw [Nat.mul_comm]; exact inside)
    omega
  | succ fuel inductionHypothesis =>
    have none (other : Nat) (late : call ≤ other) (early : other < call) :
        FullChunk env content.length other ∧ ¬ Stops env other := by omega
    by_cases stops : Stops env call
    · exact ⟨call, Nat.le_refl _, inside, none,
        Or.inl ⟨stops, read_from_stops env content fuel call inside small stops⟩⟩
    · obtain ⟨goesOn, ends⟩ := read_from_step env content fuel call inside small stops
      by_cases full : FullChunk env content.length call
      · rw [goesOn full]
        have later := full_chunk_inside env content.length call full
        have fits : chunkSize * (call + 1) < 2 ^ 32 := Nat.lt_of_not_le (not_or.mp stops).2
        exact read_outcome_earlier env content call _ full stops
          (inductionHypothesis (call + 1) (by omega) later fits)
      · obtain ⟨count, spare, counted, ended⟩ := ends full
        have within := (read_count_bounds env call (content.length - chunkSize * call)).1
        have whole : (content.take (chunkSize * call + count)).length = chunkSize * call + count :=
          List.length_take_of_le (by omega)
        refine ⟨call, Nat.le_refl _, inside, none, Or.inr ⟨stops, full, ?_⟩⟩
        rw [← counted]
        refine ⟨_, ended, ?_, List.take_left' whole⟩
        rw [List.length_append, whole]
        exact Nat.le_add_right _ _

/-- The writes of the padding append it exactly when each byte is taken. Each byte is a call of
its own. -/
theorem padding_written (env : Environment) (count : Nat) :
    let written := (List.range count).flatMap (fun i => fwrite env (i + 1) [0xFF])
    written.length ≤ count ∧ (written.length = count → ∀ i < count, 1 ≤ env.accepts (i + 1) 1) ∧
      ((∀ i < count, 1 ≤ env.accepts (i + 1) 1) → written = List.replicate count 0xFF) := by
  induction count with
  | zero => simp
  | succ count inductionHypothesis =>
    obtain ⟨bounded, needed, enough⟩ := inductionHypothesis
    have single : (fwrite env (count + 1) [0xFF]).length = min (env.accepts (count + 1) 1) 1 := by
      rw [fwrite, List.length_take, List.length_singleton]
    simp only [List.range_succ, List.flatMap_append, List.flatMap_singleton, List.length_append,
      single]
    refine ⟨by omega, ?_, ?_⟩
    · intro whole i below
      rcases Nat.lt_succ_iff_lt_or_eq.mp below with earlier | rfl
      · exact needed (by omega) i earlier
      · omega
    · intro taken
      have last : fwrite env (count + 1) [0xFF] = [0xFF] :=
        List.take_of_length_le (taken count (Nat.lt_succ_self _))
      rw [enough fun i below => taken i (Nat.lt_succ_of_lt below), last, List.replicate_succ']

/-! ## The runs of the generator -/

/-- The property of an honest run: a run that returns 1 has written the complete image. Runs that
return 0 promise nothing. -/
def Honest (env : Environment) (content binFilePath datFilePath : List u8)
    (productName version : Option (List u8)) : Prop :=
  ∀ written, generateUpdateFile env content binFilePath datFilePath productName version =
      .ok (1, written) →
    ∃ dat name text, written = some dat ∧ productName = some name ∧ version = some text ∧
      UpdateImage content name text dat

/-- The checks in front of the reading loop: an extension is wrong, a string is missing, a
file is not opened, or there is no memory for the header. -/
def Rejected (env : Environment) (binFilePath datFilePath : List u8)
    (productName version : Option (List u8)) : Prop :=
  hasExtension binFilePath (ascii ".bin") = false ∨
  hasExtension datFilePath (ascii ".dat") = false ∨
  productName = none ∨ version = none ∨
  env.opensBin = false ∨ env.opensDat = false ∨ env.grantsHeader = false

/-- The check in the reading loop: a `realloc` is refused while the chunks are still full. The
code returns 0 there. -/
def MemoryEnds (env : Environment) (size : Nat) : Prop :=
  ∃ last, (∀ call < last, FullChunk env size call) ∧ env.grantsChunk last = false

/-- `file_buf_size` wraps while the chunks are still full. The code does not check this: the
next chunk is read to a place behind the buffer, which is undefined. -/
def SizeWraps (env : Environment) (size : Nat) : Prop :=
  ∃ last, (∀ call < last, FullChunk env size call) ∧ 2 ^ 32 ≤ chunkSize * (last + 1)

/-- The reading loop stops in one of these ways. In neither of them is anything written behind. -/
def LoopStops (env : Environment) (size : Nat) : Prop :=
  ∃ last, (∀ call < last, FullChunk env size call) ∧ Stops env last

/-- The reading loop ends early exactly when memory ends or the size wraps. The two are kept apart
because only the first is a check of the code. -/
theorem loop_stops_iff (env : Environment) (size : Nat) :
    LoopStops env size ↔ MemoryEnds env size ∨ SizeWraps env size := by
  simp only [LoopStops, MemoryEnds, SizeWraps, Stops, and_or_left, exists_or]

/-- Every `fread` delivers what is left of the file, up to a chunk, and every `fwrite` takes
all it is given. -/
structure Transferred (env : Environment) (size : Nat) : Prop where
  reads : ∀ call, chunkSize * call ≤ size →
    min chunkSize (size - chunkSize * call) ≤
      env.delivers call (min chunkSize (size - chunkSize * call))
  header : 68 ≤ env.accepts 0 68
  padding : ∀ i < 188, 1 ≤ env.accepts (i + 1) 1
  payload : size ≤ env.accepts 189 size

/-- What a run that returns 1 wrote: the image of a part of the content, cut off at the
first `fread` that was not a full chunk, as far as the writes took it. -/
def Written (env : Environment) (content productName version : List u8)
    (result : Run (Int × Option (List u8))) : Prop :=
  ∃ (last total : Nat) (fht : FileHeaderType), chunkSize * last ≤ content.length ∧
    (∀ call < last, FullChunk env content.length call) ∧ ¬ FullChunk env content.length last ∧
    total = chunkSize * last + readCount env last (content.length - chunkSize * last) ∧
    result = .ok (1, some (writeImage env fht.bytes (content.take total))) ∧
    UpdateImage (content.take total) productName version
      (fht.bytes ++ (List.replicate 188 0xFF ++ content.take total))

/-- The outcome of the whole reading loop. Proof: from the last call back to the first. -/
theorem read_outcome (env : Environment) (content : List u8) :
    ReadOutcome env content 0
      (readLoop env (content.length / chunkSize + 1) 0 content [] 0 0) :=
  read_loop_cases env content (content.length / chunkSize + 1) 0 (by omega) (Nat.zero_le _)
    (by decide)

/-- A rejected run returns 0. Whether the `.dat` file was opened by then depends on the check. -/
theorem rejected_returns (env : Environment) (content binFilePath datFilePath : List u8)
    (productName version : Option (List u8))
    (rejected : Rejected env binFilePath datFilePath productName version) :
    ∃ file, generateUpdateFile env content binFilePath datFilePath productName version =
      .ok (0, file) := by
  rw [generateUpdateFile.eq_def]
  cases productName with
  | none => dsimp only; split_ifs <;> exact ⟨_, rfl⟩
  | some name =>
    cases version with
    | none => dsimp only; split_ifs <;> exact ⟨_, rfl⟩
    | some text =>
      dsimp only
      split_ifs
      case neg => simp_all [Rejected]
      all_goals exact ⟨_, rfl⟩

/-- A run that is not rejected ends as its reading loop does: with a fault, without memory,
or with a buffer that it puts behind a finished header. -/
theorem unrejected_returns (env : Environment) (content binFilePath datFilePath : List u8)
    (productName version : Option (List u8))
    (unrejected : ¬ Rejected env binFilePath datFilePath productName version) :
    let read := readLoop env (content.length / chunkSize + 1) 0 content [] 0 0
    let run := generateUpdateFile env content binFilePath datFilePath productName version
    ∃ name text, productName = some name ∧ version = some text ∧
      (∀ fault, read = .error fault → run = .error fault) ∧
      (read = .ok none → run = .ok (0, some [])) ∧
      ∀ fileBuf fileLen fht, read = .ok (some (fileBuf, fileLen)) →
        finishHeader (initialHeader text name) fileBuf fileLen = .ok fht →
        run = .ok (1, some (writeImage env fht.bytes (fileBuf.take fileLen.toNat))) := by
  simp only [Rejected, not_or] at unrejected
  obtain ⟨bin, dat, named, versioned, binOpen, datOpen, header⟩ := unrejected
  obtain ⟨name, rfl⟩ := Option.ne_none_iff_exists'.mp named
  obtain ⟨text, rfl⟩ := Option.ne_none_iff_exists'.mp versioned
  intro read run
  have whole : run = generateUpdateFile env content binFilePath datFilePath (some name)
    (some text) :=
    rfl
  rw [generateUpdateFile.eq_def, if_neg bin, if_neg dat] at whole
  dsimp only at whole
  rw [if_neg binOpen, if_neg datOpen, if_neg header] at whole
  refine ⟨name, text, rfl, rfl, ?_, ?_, ?_⟩
  · intro fault failed
    rw [whole, show readLoop _ _ _ _ _ _ _ = _ from failed, error_bind]
  · intro ended
    rw [whole, show readLoop _ _ _ _ _ _ _ = _ from ended, ok_bind]
  · intro fileBuf fileLen fht filled finished
    rw [whole, show readLoop _ _ _ _ _ _ _ = _ from filled, ok_bind]
    dsimp only
    rw [finished, ok_bind]

/-- A run whose reading loop stops does not return 1. It returns 0 or reads outside the buffer. -/
theorem ended_returns (env : Environment) (content binFilePath datFilePath : List u8)
    (productName version : Option (List u8)) (ends : LoopStops env content.length)
    (written : Option (List u8)) :
    generateUpdateFile env content binFilePath datFilePath productName version ≠
      .ok (1, written) := by
  by_cases rejected : Rejected env binFilePath datFilePath productName version
  · obtain ⟨file, returned⟩ := rejected_returns env content _ _ _ _ rejected
    simp [returned]
  obtain ⟨name, text, -, -, failing, ending, -⟩ := unrejected_returns env content _ _ _ _ rejected
  obtain ⟨last, full, stops⟩ := ends
  obtain ⟨reached, -, -, earlier, outcome⟩ := read_outcome env content
  rcases outcome with ⟨-, memory | overrun⟩ | ⟨running, short, -⟩
  · simp [ending memory]
  · simp [failing _ overrun]
  · -- The loop would have stopped at `last`, before or after the read that ended it.
    rcases lt_trichotomy reached last with before | rfl | after
    · exact absurd (full reached before) short
    · exact absurd stops running
    · exact absurd stops (earlier last (Nat.zero_le _) after).2

/-- Every other run returns 1 and writes the image of what it read. What it read need not be the
whole file. -/
theorem written_returns (env : Environment) (content binFilePath datFilePath : List u8)
    (productName version : Option (List u8))
    (unrejected : ¬ Rejected env binFilePath datFilePath productName version)
    (goesOn : ¬ LoopStops env content.length) :
    ∃ name text, productName = some name ∧ version = some text ∧
      Written env content name text
        (generateUpdateFile env content binFilePath datFilePath productName version) := by
  obtain ⟨name, text, named, versioned, -, -, finishing⟩ :=
    unrejected_returns env content _ _ _ _ unrejected
  obtain ⟨last, -, inside, earlier, outcome⟩ := read_outcome env content
  have full (call : Nat) (before : call < last) : FullChunk env content.length call :=
    (earlier call (Nat.zero_le _) before).1
  rcases outcome with ⟨stops, -⟩ | ⟨running, short, fileBuf, filled, whole, part⟩
  · exact absurd ⟨last, full, stops⟩ goesOn
  refine ⟨name, text, named, versioned, ?_⟩
  generalize counted : chunkSize * last + readCount env last (content.length - chunkSize * last) =
    total at filled whole part
  have within : total ≤ content.length := by
    have bounded := (read_count_bounds env last (content.length - chunkSize * last)).1
    omega
  have small : total < 2 ^ 32 := by
    have bounded := (read_count_bounds env last (content.length - chunkSize * last)).2
    simp only [Stops, not_or, Nat.not_le, Nat.mul_succ] at running
    omega
  have size : (UInt32.ofNat total).toNat = total := UInt32.toNat_ofNat_of_lt' small
  have partSize : (content.take total).length = total := List.length_take_of_le within
  obtain ⟨fht, finished, lengthField, contentCrc, headerCrc, versionField, productField⟩ :=
    header_finished (initialHeader text name) fileBuf (UInt32.ofNat total) (by rwa [size])
  have returned := finishing fileBuf (UInt32.ofNat total) fht filled finished
  rw [size, part] at returned
  refine ⟨last, total, fht, inside, full, short, counted.symm, returned, ?_⟩
  refine image_assembled fht (content.take total) name text (by rwa [partSize])
    (by rw [partSize, lengthField]) ?_ headerCrc versionField productField
  rw [partSize, ← contentCrc]
  exact crc32_prefix _ _ _ _ (by rw [size, List.take_take, Nat.min_self, part])
    (by rw [size, partSize]) (by rwa [size])

/-- The writes of an image together, when they take all they are given. The padding is written
byte by byte, in 188 calls. -/
theorem image_complete (env : Environment) (header payload : List u8)
    (headerTaken : header.length ≤ env.accepts 0 header.length)
    (paddingTaken : ∀ i < 188, 1 ≤ env.accepts (i + 1) 1)
    (payloadTaken : payload.length ≤ env.accepts 189 payload.length) :
    writeImage env header payload = header ++ (List.replicate 188 0xFF ++ payload) := by
  have front : fwrite env 0 header = header := List.take_of_length_le headerTaken
  have back : fwrite env 189 payload = payload := List.take_of_length_le payloadTaken
  rw [writeImage, front, back, (padding_written env 188).2.2 paddingTaken, List.append_assoc]

/-- An image of full length was taken whole by every write. So the length alone tells whether a
write was cut. -/
theorem image_length (env : Environment) (header payload : List u8) :
    (writeImage env header payload).length ≤ header.length + 188 + payload.length ∧
    ((writeImage env header payload).length = header.length + 188 + payload.length →
      header.length ≤ env.accepts 0 header.length ∧ (∀ i < 188, 1 ≤ env.accepts (i + 1) 1) ∧
        payload.length ≤ env.accepts 189 payload.length) := by
  obtain ⟨bounded, needed, -⟩ := padding_written env 188
  have front : (fwrite env 0 header).length = min (env.accepts 0 header.length) header.length :=
    List.length_take
  have back : (fwrite env 189 payload).length =
      min (env.accepts 189 payload.length) payload.length := List.length_take
  simp only [writeImage, List.length_append, front, back]
  refine ⟨by omega, fun whole => ⟨by omega, needed (by omega), by omega⟩⟩

/-- A run that transfers everything writes the complete image. Proof: the first chunk that is not
full is then the last of the file. -/
theorem transferred_image (env : Environment) (content productName version : List u8)
    (result : Run (Int × Option (List u8)))
    (written : Written env content productName version result)
    (transferred : Transferred env content.length) :
    ∃ dat, result = .ok (1, some dat) ∧ UpdateImage content productName version dat := by
  obtain ⟨last, total, fht, inside, -, short, counted, returned, image⟩ := written
  have delivered : readCount env last (content.length - chunkSize * last) =
      min chunkSize (content.length - chunkSize * last) :=
    Nat.min_eq_right (transferred.reads last inside)
  have all : total = content.length := by
    simp only [FullChunk, delivered] at short
    omega
  rw [all, List.take_length] at returned image
  rw [image_complete env fht.bytes content (by rw [header_size]; exact transferred.header)
    transferred.padding transferred.payload] at returned
  exact ⟨_, returned, image⟩

/-- An image of full length shows that everything was transferred. Proof: header, padding and
payload have at most their sizes, so none of them can be short. -/
theorem length_transferred (env : Environment) (content productName version dat : List u8)
    (written : Written env content productName version (.ok (1, some dat)))
    (size : dat.length = 256 + content.length) : Transferred env content.length := by
  obtain ⟨last, total, fht, inside, full, short, counted, returned, -⟩ := written
  obtain rfl : dat = writeImage env fht.bytes (content.take total) := by simpa using returned
  obtain ⟨bounded, needed⟩ := image_length env fht.bytes (content.take total)
  have partSize : (content.take total).length = min total content.length := List.length_take
  have headerSize := header_size fht
  have count : readCount env last (content.length - chunkSize * last) ≤
      min chunkSize (content.length - chunkSize * last) := Nat.min_le_right _ _
  have all : total = content.length := by omega
  rw [headerSize, all, List.take_length] at needed
  rw [all, List.take_length] at size
  obtain ⟨header, padding, payload⟩ := needed (by omega)
  refine ⟨?_, header, padding, payload⟩
  intro call before
  apply min_eq_right_iff.mp
  change readCount env call _ = _
  rcases lt_trichotomy call last with earlier | rfl | later
  · have whole : readCount env call (content.length - chunkSize * call) = chunkSize :=
      full call earlier
    have present := full_chunk_inside env content.length call (full call earlier)
    rw [Nat.mul_succ] at present
    omega
  · omega
  · have behind : chunkSize * (last + 1) ≤ chunkSize * call := Nat.mul_le_mul_left _ later
    rw [Nat.mul_succ] at behind
    have limit : readCount env last (content.length - chunkSize * last) ≠ chunkSize := short
    omega

/-! ## Complete images -/

/-- Every file and memory operation succeeds, and `fread` and `fwrite` move all they are
asked to, so a short count of `fread` means the end of the file. -/
structure Reliable (env : Environment) : Prop where
  opensBin : env.opensBin = true
  opensDat : env.opensDat = true
  grantsHeader : env.grantsHeader = true
  grantsChunk : ∀ call, env.grantsChunk call = true
  delivers : ∀ call asked, asked ≤ env.delivers call asked
  accepts : ∀ call asked, asked ≤ env.accepts call asked

/-- With memory for every chunk the loop does not stop while the file leaves room for one
more. -/
theorem memory_lasts (env : Environment) (size : Nat)
    (granted : ∀ call, env.grantsChunk call = true) (small : size < 2 ^ 32 - 5120) :
    ¬ LoopStops env size := by
  rintro ⟨last, full, refused | wraps⟩
  · simp [granted last] at refused
  · have inside : chunkSize * last ≤ size := by
      cases last with
      | zero => exact Nat.zero_le _
      | succ call => exact full_chunk_inside env size call (full call (Nat.lt_succ_self _))
    rw [Nat.mul_succ] at wraps
    simp only [chunkSize] at wraps inside
    omega

/-- With everything outside succeeding the generator returns 1, without the fault that a write
behind `file_buf_size` would be, and a reader of the update file recovers the content, its length,
both checksums and the two strings. Proof: the loop takes the file chunk by chunk to its end, and
each field is read where it was put. -/
theorem update_file_read_back (env : Environment)
    (content binFilePath datFilePath productName version : List u8) (reliable : Reliable env)
    (binName : hasExtension binFilePath (ascii ".bin") = true)
    (datName : hasExtension datFilePath (ascii ".dat") = true)
    (small : content.length < 2 ^ 32 - 5120) :
    ∃ dat, generateUpdateFile env content binFilePath datFilePath (some productName)
        (some version) = .ok (1, some dat) ∧ UpdateImage content productName version dat := by
  have unrejected : ¬ Rejected env binFilePath datFilePath (some productName) (some version) := by
    simp [Rejected, binName, datName, reliable.opensBin, reliable.opensDat, reliable.grantsHeader]
  obtain ⟨name, text, named, versioned, written⟩ := written_returns env content _ _ _ _ unrejected
    (memory_lasts env content.length reliable.grantsChunk small)
  obtain rfl := Option.some.inj named
  obtain rfl := Option.some.inj versioned
  exact transferred_image env content productName version _ written
    ⟨fun _ _ => reliable.delivers _ _, reliable.accepts _ _, fun _ _ => reliable.accepts _ _,
      reliable.accepts _ _⟩

/-- Three bytes come back from an update file. One chunk is enough for them. -/
theorem three_bytes_read_back :
    ∃ dat, generateUpdateFile ⟨true, true, true, fun _ => true, 0, fun _ asked => asked,
        fun _ asked => asked⟩ [1, 2, 3] (ascii "a.bin") (ascii "a.dat") (some (ascii "dwip"))
        (some (ascii "1.0")) = .ok (1, some dat) ∧
      UpdateImage [1, 2, 3] (ascii "dwip") (ascii "1.0") dat :=
  update_file_read_back _ _ _ _ _ _
    ⟨rfl, rfl, rfl, fun _ => rfl, fun _ _ => Nat.le_refl _, fun _ _ => Nat.le_refl _⟩
    (by decide) (by decide) (by decide)

/-- A run is honest exactly when it stops at one of the code's checks, or comes to the overrun
behind a wrapped `file_buf_size` and returns nothing, or everything was transferred: a count
that `fread` or `fwrite` cut short is taken for the end of the file or not looked at. -/
theorem honest_exactly_when (env : Environment) (content binFilePath datFilePath : List u8)
    (productName version : Option (List u8)) :
    Honest env content binFilePath datFilePath productName version ↔
      Rejected env binFilePath datFilePath productName version ∨
        MemoryEnds env content.length ∨ SizeWraps env content.length ∨
          Transferred env content.length := by
  rw [← @or_assoc (MemoryEnds _ _), ← loop_stops_iff]
  by_cases rejected : Rejected env binFilePath datFilePath productName version
  · obtain ⟨file, returned⟩ := rejected_returns env content _ _ _ _ rejected
    apply iff_of_true _ (Or.inl rejected)
    intro written claimed
    simp [returned] at claimed
  by_cases ends : LoopStops env content.length
  · apply iff_of_true _ (Or.inr (Or.inl ends))
    intro written claimed
    exact absurd claimed (ended_returns env content _ _ _ _ ends written)
  obtain ⟨name, text, named, versioned, written⟩ :=
    written_returns env content _ _ _ _ rejected ends
  constructor
  · intro honest
    have ⟨_, _, _, _, _, _, _, returned, _⟩ := written
    obtain ⟨dat, _, _, same, -, -, image⟩ := honest _ returned
    rw [returned, same] at written
    exact Or.inr (Or.inr (length_transferred env content name text dat written image.size))
  · rintro (wrong | stops | transferred) result returned
    · exact absurd wrong rejected
    · exact absurd stops ends
    · obtain ⟨dat, complete, image⟩ :=
        transferred_image env content name text _ written transferred
      rw [complete] at returned
      refine ⟨dat, name, text, ?_, named, versioned, image⟩
      simpa using returned.symm

/-- An outside in which every `fread` fails. The loop takes this for the end of the file. -/
def readError : Environment :=
  ⟨true, true, true, fun _ => true, 0, fun _ _ => 0, fun _ asked => asked⟩

/-- A read error on the only chunk: the run returns 1, and the image is that of an empty
file. -/
theorem read_error_hidden :
    ¬ Honest readError [0xAA] (ascii "a.bin") (ascii "a.dat") (some (ascii "dwip"))
      (some (ascii "1.0")) := by
  intro honest
  have unrejected : ¬ Rejected readError (ascii "a.bin") (ascii "a.dat") (some (ascii "dwip"))
      (some (ascii "1.0")) := by
    unfold Rejected
    decide
  obtain ⟨_, _, -, -, last, total, fht, inside, -, -, counted, returned, -⟩ :=
    written_returns readError [0xAA] _ _ _ _ unrejected
      (memory_lasts readError 1 (fun _ => rfl) (by decide))
  obtain ⟨dat, _, _, same, -, -, image⟩ := honest _ returned
  obtain rfl := Option.some.inj same
  have size := image.size
  have bounded := (image_length readError fht.bytes (([0xAA] : List u8).take total)).1
  have nothing : total = 0 := by
    have isZero : readCount readError last ([0xAA].length - chunkSize * last) = 0 := Nat.zero_min _
    simp only [List.length_singleton, chunkSize] at inside isZero counted
    omega
  rw [header_size, nothing] at bounded
  rw [nothing] at size
  simp only [List.take_zero, List.length_nil, List.length_singleton] at bounded size
  omega

end EffiLib.Dwiap
