import EffiLib.FatFs.FileSync

/-!
# Files as sequences of bytes

What an open file is for: a sequence of bytes with a place in it. Reading, writing, seeking,
truncating and synchronizing are requests on that sequence, whose only further bound is the
number of clusters that the volume has left. Each function on the file object answers as the
sequence does.
-/

namespace EffiLib.FatFs

open Buffers Sectors BlockCache PlacedBytes ChainTable LittleEndian

/-- What is asked of an open file. The time of `sync` is what the directory entry will have. -/
inductive FileRequest where
  | read (btr : Nat)
  | write (buff : List u8)
  | seek (ofs : Nat)
  | truncate
  | sync (tim : Nat)

/-- The answer to a request: the result, the bytes that were read, and how many bytes were read or
written. -/
structure FileReply where
  res : FResult
  data : List u8
  count : Nat
deriving DecidableEq

/-- A request served by the functions on the file object. It translates requests to calls, and
answers to replies. -/
def OpenFile.serve (file : OpenFile) : FileRequest → Run (FileReply × OpenFile)
  | .read btr => do
    let (res, data, after) ← fRead file btr
    .ok (⟨res, data, data.length⟩, after)
  | .write buff => do
    let (res, bw, after) ← fWrite file buff
    .ok (⟨res, [], bw⟩, after)
  | .seek ofs => do
    let (res, after) ← fLseek file ofs
    .ok (⟨res, [], 0⟩, after)
  | .truncate => do
    let (res, after) ← fTruncate file
    .ok (⟨res, [], 0⟩, after)
  | .sync tim =>
    let (res, after) := fSync file tim
    .ok (⟨res, [], 0⟩, after)

/-- The requests that a file can be asked: a number of bytes and an offset are words, and a file
is cut inside the sector that its buffer holds, or not at all. -/
def FIL.Allows (fp : FIL) : FileRequest → Prop
  | .read _ => True
  | .write buff => buff.length < 2 ^ 32
  | .seek ofs => ofs < 2 ^ 32
  | .truncate => fp.fptr % sectorSize ≠ 0 ∨ fp.fsize ≤ fp.fptr
  | .sync _ => True

/-- A file as it is used: its bytes, a place in them, the number of its clusters, what it is open
for, and whether it has changed since it was synchronized. -/
structure ByteFile where
  bytes : List u8
  position : Nat
  clusters : Nat
  readable : Bool
  writable : Bool
  unsaved : Bool

/-- A request on the sequence of bytes, with clusters of some size and room for so many. Bytes that
a file gets by seeking behind its end may be any. -/
def ByteFile.Answers (cluster room : Nat) (file : ByteFile) :
    FileRequest → FileReply → ByteFile → Prop
  | .read btr, reply, after =>
    if file.readable then
      let data := (file.bytes.drop file.position).take btr
      reply = ⟨.ok, data, data.length⟩ ∧
        after = { file with position := file.position + data.length }
    else reply = ⟨.denied, [], 0⟩ ∧ after = file
  | .write buff, reply, after =>
    if file.writable then
      let count := if file.bytes.length + buff.length < 2 ^ 32 then
        min buff.length (cluster * room - file.position) else 0
      reply = ⟨.ok, [], count⟩ ∧ after = { file with
        bytes := overwrite file.bytes file.position (buff.take count),
        position := file.position + count,
        clusters := max file.clusters (clustersUpTo cluster (file.position + count)),
        unsaved := true }
    else reply = ⟨.denied, [], 0⟩ ∧ after = file
  | .seek ofs, reply, after =>
    let place := min ofs (if file.writable then cluster * room else file.bytes.length)
    reply = ⟨.ok, [], 0⟩ ∧ ∃ filler : List u8, filler.length = place - file.bytes.length ∧
      after = { file with
        bytes := file.bytes ++ filler,
        position := place,
        clusters := max file.clusters (clustersUpTo cluster place),
        unsaved := file.unsaved || decide (file.bytes.length < place) }
  | .truncate, reply, after =>
    if file.writable then
      reply = ⟨.ok, [], 0⟩ ∧ after = { file with
        bytes := file.bytes.take file.position,
        clusters := if file.position < file.bytes.length then
          clustersUpTo cluster file.position else file.clusters,
        unsaved := file.unsaved || decide (file.position < file.bytes.length) }
    else reply = ⟨.denied, [], 0⟩ ∧ after = file
  | .sync _, reply, after => reply = ⟨.ok, [], 0⟩ ∧ after = { file with unsaved := false }

section Requests

variable (start : FATFS) (lost : List Nat) (front back : List (List Nat)) (chain : List Nat)
  (file : OpenFile)

/-- The file object holds the sequence of bytes, and its buffer holds one of its sectors. What its
directory entry does not say yet is marked. -/
structure FileHolds (stored : ByteFile) : Prop where
  tracks : Tracks start lost chain file
  own : file.fp.dsect = 0 ∨ Owns start chain file.fp.dsect
  bytes : stored.bytes = piece (file.byte start chain) 0 file.fp.fsize
  position : stored.position = file.fp.fptr
  reached : file.fp.fptr ≤ file.fp.fsize
  clusters : stored.clusters = chain.length
  readable : stored.readable = file.fp.faRead
  writable : stored.writable = file.fp.faWrite
  unsaved : stored.unsaved = file.fp.faWritten
  entryPlaced : EntryPlaced start lost file.fp.dirSect file.fp.dirPtr
  noted : file.fp.faDirty = true → file.fp.faWritten = true
  recorded : file.fp.faWritten = false →
    EntryHolds (file.volume.cache.view file.fp.dirSect) file.fp

/-- What a request leaves of the volume: data is changed in the clusters of the file only, and of
the directories the entry of the file only. -/
structure Steps (after : OpenFile) (changed : List Nat) : Prop where
  storage : Storage start lost (front ++ changed :: back) after.volume
  others : ∀ number, Available start lost number → ¬ Owns start changed number →
    number ≠ file.fp.dsect → after.volume.cache.store number = file.volume.cache.store number
  entries : ∀ number dir, EntryPlaced start lost number dir →
    (file.fp.dirSect ≠ number ∨ file.fp.dirPtr + 32 ≤ dir ∨ dir + 32 ≤ file.fp.dirPtr) →
    ∀ place, dir ≤ place → place < dir + 32 →
      byteAt (after.volume.cache.view number) place = byteAt (file.volume.cache.view number) place
  sector : after.fp.dirSect = file.fp.dirSect
  entry : after.fp.dirPtr = file.fp.dirPtr

/-- The sector of an entry is beside the FATs and the files. So a write to one of those leaves the
entry. -/
theorem entry_beside (number dir : Nat) (entryPlaced : EntryPlaced start lost number dir) :
    Beside start lost number :=
  ⟨Or.inr entryPlaced.behind, entryPlaced.free⟩

/-- What is served changes no entry. The directory is outside of the data area that the request
works on. -/
theorem served_steps (after : OpenFile) (changed : List Nat)
    (served : Served start lost front back file after changed)
    (sector : after.fp.dirSect = file.fp.dirSect) (entry : after.fp.dirPtr = file.fp.dirPtr) :
    Steps start lost front back file after changed :=
  ⟨served.storage, served.others, fun number dir entryPlaced _ place _ _ => by
    rw [served.beside number (entry_beside start lost number dir entryPlaced)], sector, entry⟩

/-- Nothing is done. It is the step of a request that is refused. -/
theorem steps_refl (storage : Storage start lost (front ++ chain :: back) file.volume) :
    Steps start lost front back file file chain :=
  ⟨storage, fun _ _ _ _ => rfl, fun _ _ _ _ _ _ _ => rfl, rfl, rfl⟩

/-- A chain that ends in the cluster of a place has as many clusters as it needs. No cluster is
taken that the place does not need. -/
theorem grown_clusters (placed : DataPlaced start) (grown : List Nat) (place : Nat)
    (within : place ≤ clusterSize start * (chain ++ grown).length)
    (isGrown : grown = [] ∨ clusterSize start * ((chain ++ grown).length - 1) < place) :
    (chain ++ grown).length = max chain.length (clustersUpTo (clusterSize start) place) := by
  have positive := cluster_size_pos start placed
  have few := clusters_up_to_few _ place _ positive within
  rw [List.length_append] at *
  rcases isGrown with isEmpty | late
  · rw [isEmpty, List.length_nil] at few ⊢
    omega
  · have many : chain.length + grown.length ≤ clustersUpTo (clusterSize start) place := by
      rw [clustersUpTo, Nat.le_div_iff_mul_le positive, Nat.mul_comm]
      cases total : chain.length + grown.length with
      | zero => omega
      | succ total =>
        rw [total, Nat.succ_sub_one] at late
        rw [Nat.mul_succ]
        omega
    omega

variable (stored : ByteFile)

/-- A request is answered as the sequence of bytes answers it. The file goes on holding the
sequence that the answer leaves. -/
def Serves (request : FileRequest) : Prop :=
  ∃ reply after changed storedAfter, file.serve request = .ok (reply, after) ∧
    Steps start lost front back file after changed ∧
    FileHolds start lost changed after storedAfter ∧
    stored.Answers (clusterSize start) (clustersFor start lost (front ++ back)) request reply
      storedAfter

/-- A request of a file that is not open for it is denied. Nothing is moved, and the file is as
before. -/
theorem denied_serves (storage : Storage start lost (front ++ chain :: back) file.volume)
    (holds : FileHolds start lost chain file stored) (request : FileRequest)
    (served : file.serve request = .ok (⟨.denied, [], 0⟩, file))
    (answers : stored.Answers (clusterSize start) (clustersFor start lost (front ++ back)) request
      ⟨.denied, [], 0⟩ stored) : Serves start lost front back file stored request :=
  ⟨_, file, chain, stored, served, steps_refl start lost front back chain file storage, holds,
  answers⟩

/-- An entry of a file whose size and first cluster are as before still holds them. It is looked
at when the file is not marked as changed. -/
theorem recorded_served (holds : FileHolds start lost chain file stored) (after : OpenFile)
    (view : after.volume.cache.view file.fp.dirSect = file.volume.cache.view file.fp.dirSect)
    (unwritten : file.fp.faWritten = false) (sector : after.fp.dirSect = file.fp.dirSect)
    (entry : after.fp.dirPtr = file.fp.dirPtr) (size : after.fp.fsize = file.fp.fsize)
    (first : after.fp.sclust = file.fp.sclust) :
    EntryHolds (after.volume.cache.view after.fp.dirSect) after.fp := by
  rw [sector, view, EntryHolds, entry, size, first]
  exact holds.recorded unwritten

/-- The sequence is as long as the file. The size is a field of the file object. -/
theorem holds_length (holds : FileHolds start lost chain file stored) :
    stored.bytes.length = file.fp.fsize := by
  rw [holds.bytes, piece_length]

section Holding

variable (placed : DataPlaced start)
  (storage : Storage start lost (front ++ chain :: back) file.volume)
  (holds : FileHolds start lost chain file stored)

include placed storage holds

/-- `f_read` delivers the bytes of the sequence. The sequence keeps its bytes, and its place moves
behind those delivered. -/
theorem read_serves (btr : Nat) : Serves start lost front back file stored (.read btr) := by
  have readable := holds.readable
  have sized := holds.tracks.backed.sized
  have reached := holds.reached
  cases mode : file.fp.faRead with
  | false =>
    refine denied_serves start lost front back chain file stored storage holds _ ?_ ?_
    · rw [OpenFile.serve, fRead, validate_ok start lost front back chain file storage
        holds.tracks.backed]
      dsimp only
      rw [if_neg (by simp [holds.tracks.backed.going]), if_pos (by simp [mode])]
      rfl
    · rw [ByteFile.Answers, if_neg (by simp [readable, mode])]
      exact ⟨rfl, rfl⟩
  | true =>
    obtain ⟨after, ran, passed⟩ := f_read_piece start placed lost front back chain file storage
      holds.tracks mode reached btr
    have same := passed.same
    have sector : after.fp.dirSect = file.fp.dirSect := by rw [same]
    have entry : after.fp.dirPtr = file.fp.dirPtr := by rw [same]
    have size : after.fp.fsize = file.fp.fsize := by rw [same]
    have first : after.fp.sclust = file.fp.sclust := by rw [same]
    have written : after.fp.faWritten = file.fp.faWritten := by rw [same]
    have bytes := seen_piece start placed lost front back chain file after storage passed.seen 0
      file.fp.fsize (by omega)
    have few : min btr (file.fp.fsize - file.fp.fptr) ≤ file.fp.fsize - file.fp.fptr :=
      Nat.min_le_right _ _
    have data : (stored.bytes.drop stored.position).take btr = piece (file.byte start chain)
        file.fp.fptr (min btr (file.fp.fsize - file.fp.fptr)) := by
      have window := piece_window (file.byte start chain) 0 file.fp.fsize file.fp.fptr
        (min btr (file.fp.fsize - file.fp.fptr)) (by omega)
      rw [Nat.zero_add, ← holds.bytes, ← holds.position] at window
      rw [← holds.position, ← window, List.take_eq_take_iff, List.length_drop,
        holds_length start lost chain file stored holds]
      omega
    refine ⟨_, after, chain, { stored with
        position := stored.position + min btr (file.fp.fsize - file.fp.fptr) },
      by rw [OpenFile.serve, ran, ok_bind],
      served_steps start lost front back file after chain passed.served sector entry,
      ⟨passed.tracks, ?_, ?_, ?_, ?_, holds.clusters, ?_, ?_, ?_, ?_, fun dirty => ?_,
        fun unwritten => ?_⟩, ?_⟩
    · rcases passed.served.place with kept | owned
      · rw [kept]
        exact holds.own
      · exact Or.inr owned
    · rw [size, bytes]
      exact holds.bytes
    · rw [passed.pointer, ← holds.position]
    · rw [passed.pointer, size]
      omega
    · rw [same]
      exact readable
    · rw [same]
      exact holds.writable
    · rw [written]
      exact holds.unsaved
    · rw [sector, entry]
      exact holds.entryPlaced
    · rw [written]
      exact holds.noted (passed.calmer dirty)
    · exact recorded_served start lost chain file stored holds after (passed.served.beside _
        (entry_beside start lost _ _ holds.entryPlaced)) (written ▸ unwritten) sector entry size
        first
    · rw [ByteFile.Answers, if_pos (readable.trans mode)]
      dsimp only
      rw [data, piece_length]
      exact ⟨rfl, rfl⟩

/-- `f_write` puts bytes over the sequence, as far as there is room. A write that gets no cluster
stops where the last one ends. -/
theorem write_serves (buff : List u8) (short : buff.length < 2 ^ 32) :
    Serves start lost front back file stored (.write buff) := by
  have writable := holds.writable
  have reached := holds.reached
  cases mode : file.fp.faWrite with
  | false =>
    refine denied_serves start lost front back chain file stored storage holds _ ?_ ?_
    · rw [OpenFile.serve, fWrite, validate_ok start lost front back chain file storage
        holds.tracks.backed]
      dsimp only
      rw [if_neg (by simp [holds.tracks.backed.going]), if_pos (by simp [mode])]
      rfl
    · rw [ByteFile.Answers, if_neg (by simp [writable, mode])]
      exact ⟨rfl, rfl⟩
  | true =>
    obtain ⟨count, after, grown, ran, few, wrote, stopped, isGrown⟩ :=
      f_write_writes start lost front
      back chain file placed storage holds.tracks mode buff short
    have same := wrote.same
    have sector : after.fp.dirSect = file.fp.dirSect := by rw [same]
    have entry : after.fp.dirPtr = file.fp.dirPtr := by rw [same]
    have size : after.fp.fsize = file.fp.fsize := by rw [same]
    have taken : (buff.take count).length = count := List.length_take_of_le few
    have pointer := wrote.pointer
    rw [taken] at pointer
    have within := wrote.tracks.within
    rw [pointer] at within
    have room := within.trans (Nat.mul_le_mul_left (clusterSize start)
      (storage_few start lost front back _ _ wrote.served.storage))
    have longer : after.written.fp.fsize = max file.fp.fsize (file.fp.fptr + count) := by
      rw [OpenFile.written, pointer, size]
      dsimp only
      split <;> omega
    have sized := wrote.tracks.backed.sized
    have backed := wrote.tracks.backed
    have isCount : count = if file.fp.fsize + buff.length < 2 ^ 32 then min buff.length
        (clusterSize start * clustersFor start lost (front ++ back) - file.fp.fptr) else 0 := by
      split
      · rename_i small
        rw [if_pos small] at stopped
        rcases stopped with all | ⟨full, length⟩
        · omega
        · rw [← length, ← full]
          omega
      · rename_i large
        rw [if_neg large] at stopped
        exact stopped
    have overwritten := piece_overlay (file.byte start chain) (after.byte start (chain ++ grown))
      file.fp.fsize file.fp.fptr (buff.take count) reached wrote.bytes
    rw [taken, ← holds.bytes] at overwritten
    have newBacked : Backed start lost (chain ++ grown) after.written := by
      refine ⟨backed.valid, backed.going, backed.started, ?_, backed.filled, backed.coherent,
        backed.settled⟩
      rw [longer]
      rw [size] at sized
      omega
    refine ⟨_, after.written, chain ++ grown, { stored with
      bytes := overwrite stored.bytes stored.position (buff.take count),
      position := stored.position + count,
      clusters := max stored.clusters
        (clustersUpTo (clusterSize start) (stored.position + count)),
      unsaved := true },
      by rw [OpenFile.serve, ran, ok_bind], ⟨wrote.served.storage, wrote.served.others,
        (served_steps start lost front back file after _ wrote.served sector entry).entries, sector,
        entry⟩, ⟨⟨newBacked, wrote.tracks.within, wrote.tracks.current, wrote.tracks.held⟩, ?_, ?_,
        ?_, ?_, ?_, ?_, ?_, rfl, ?_, fun _ => rfl,
        fun unwritten => absurd unwritten.symm Bool.noConfusion⟩, ?_⟩
    · rcases wrote.served.place with kept | owned
      · rcases holds.own with isZero | owned
        · exact Or.inl (kept.trans isZero)
        · refine Or.inr (owns_append start chain grown _ ?_)
          show Owns start chain after.fp.dsect
          rw [kept]
          exact owned
      · exact Or.inr owned
    · rw [longer, ← holds.position] at *
      exact overwritten.symm
    · rw [holds.position]
      exact pointer.symm
    · rw [longer]
      show after.fp.fptr ≤ _
      omega
    · rw [holds.position, holds.clusters]
      exact (grown_clusters start chain placed grown _ within isGrown).symm
    · show stored.readable = after.fp.faRead
      rw [same]
      exact holds.readable
    · show stored.writable = after.fp.faWrite
      rw [same]
      exact holds.writable
    · show EntryPlaced start lost after.fp.dirSect after.fp.dirPtr
      rw [sector, entry]
      exact holds.entryPlaced
    · rw [ByteFile.Answers, if_pos (writable.trans mode),
        holds_length start lost chain file stored holds, holds.position, ← isCount]
      exact ⟨rfl, rfl⟩

/-- `f_lseek` moves the place, and stretches a sequence that may be written. What the stretch
gains may hold any bytes. -/
theorem seek_serves (ofs : Nat) (small : ofs < 2 ^ 32) :
    Serves start lost front back file stored (.seek ofs) := by
  have sized := holds.tracks.backed.sized
  have started := holds.tracks.backed.started
  obtain ⟨after, grown, ran, sought, isGrown⟩ :=
    f_lseek_seeks start lost front back chain file placed
    storage holds.tracks ofs small
  have goal : (if file.fp.faWrite then
      min ofs (clusterSize start * clustersFor start lost (front ++ back))
      else min ofs file.fp.fsize) = min ofs (if stored.writable then
        clusterSize start * clustersFor start lost (front ++ back) else stored.bytes.length) := by
    rw [holds.writable, holds_length start lost chain file stored holds]
    split <;> rfl
  rw [goal] at sought
  generalize placeIs : min ofs (if stored.writable then
    clusterSize start * clustersFor start lost (front ++ back) else stored.bytes.length) =
    place at *
  have same := sought.same
  have sector : after.fp.dirSect = file.fp.dirSect := by rw [same]
  have entry : after.fp.dirPtr = file.fp.dirPtr := by rw [same]
  have within := sought.tracks.within
  have newStarted := sought.tracks.backed.started
  rw [sought.pointer] at within isGrown
  have known : piece (after.byte start (chain ++ grown)) 0 file.fp.fsize = stored.bytes := by
    rw [holds.bytes]
    exact piece_congr _ _ _ _ (fun index _ below => grown_byte start lost front back chain file
      placed
      after grown storage sought.seen index (by omega))
  have longer : max file.fp.fsize place = file.fp.fsize + (place - file.fp.fsize) := by omega
  refine ⟨_, after, chain ++ grown, { stored with
      bytes := stored.bytes ++ piece (after.byte start (chain ++ grown)) file.fp.fsize
        (place - file.fp.fsize),
      position := place,
      clusters := max stored.clusters (clustersUpTo (clusterSize start) place),
      unsaved := stored.unsaved || decide (stored.bytes.length < place) },
    by rw [OpenFile.serve, ran, ok_bind],
    served_steps start lost front back file after _ sought.served sector entry,
    ⟨sought.tracks, ?_, ?_, sought.pointer.symm, ?_, ?_, ?_, ?_, ?_, ?_, fun dirty => ?_,
      fun unwritten => ?_⟩, ?_⟩
  · rcases sought.served.place with kept | owned
    · rw [kept]
      exact holds.own.imp_right (owns_append start chain grown _)
    · exact Or.inr owned
  · rw [sought.size, longer, ← piece_append, Nat.zero_add, known]
  · rw [sought.pointer, sought.size]
    exact Nat.le_max_right _ _
  · rw [holds.clusters]
    exact (grown_clusters start chain placed grown _ within (isGrown.imp_right And.right)).symm
  · rw [same]
    exact holds.readable
  · rw [same]
    exact holds.writable
  · rw [sought.marked, ← holds.unsaved, holds_length start lost chain file stored holds]
  · rw [sector, entry]
    exact holds.entryPlaced
  · rw [sought.marked, holds.noted (sought.calmer dirty), Bool.true_or]
  · rw [sought.marked, Bool.or_eq_false_iff, decide_eq_false_iff_not] at unwritten
    obtain ⟨before, reached⟩ := unwritten
    -- A file that was not marked got no cluster.
    have isEmpty : grown = [] := by
      rcases isGrown with isEmpty | ⟨_, late⟩
      · exact isEmpty
      · refine List.eq_nil_of_length_eq_zero (Nat.eq_zero_of_not_pos (fun nonzero => ?_))
        have further := Nat.mul_le_mul_left (clusterSize start)
          (show chain.length ≤ (chain ++ grown).length - 1 by rw [List.length_append]; omega)
        omega
    rw [isEmpty, List.append_nil] at newStarted
    exact recorded_served start lost chain file stored holds after (sought.served.beside _
      (entry_beside start lost _ _ holds.entryPlaced)) before sector entry
      (by rw [sought.size]; omega) (newStarted.trans started.symm)
  · rw [ByteFile.Answers, placeIs]
    exact ⟨rfl, _, by rw [piece_length, holds_length start lost chain file stored holds], rfl⟩

/-- `f_truncate` cuts the sequence at its place. The place is in the sector of the buffer, so no
sector that is given back is dirty. -/
theorem truncate_serves
    (allowed : file.fp.fptr % sectorSize ≠ 0 ∨ file.fp.fsize ≤ file.fp.fptr) :
    Serves start lost front back file stored .truncate := by
  have writable := holds.writable
  have started := holds.tracks.backed.started
  have length := holds_length start lost chain file stored holds
  cases mode : file.fp.faWrite with
  | false =>
    refine denied_serves start lost front back chain file stored storage holds _ ?_ ?_
    · rw [OpenFile.serve, fTruncate, validate_ok start lost front back chain file storage
        holds.tracks.backed]
      dsimp only
      rw [if_neg (by simp [holds.tracks.backed.going]), if_pos (by simp [mode])]
      rfl
    · rw [ByteFile.Answers, if_neg (by simp [writable, mode])]
      exact ⟨rfl, rfl⟩
  | true =>
    obtain ⟨after, ran, cut⟩ := f_truncate_cuts start lost front back chain file placed storage
      holds.tracks mode
    have same := cut.same
    have sector : after.fp.dirSect = file.fp.dirSect := by rw [same]
    have entry : after.fp.dirPtr = file.fp.dirPtr := by rw [same]
    have reached := holds.reached
    have sized := holds.tracks.backed.sized
    have size : after.fp.fsize = file.fp.fptr := by
      rw [cut.size]
      omega
    have few := clusters_up_to_few (clusterSize start) file.fp.fptr chain.length
      (cluster_size_pos start placed) (by omega)
    generalize changedIs : (if file.fp.fsize > file.fp.fptr then
      chain.take (clustersUpTo (clusterSize start) file.fp.fptr) else chain) = changed at cut
    have around : ∃ rest, chain = changed ++ rest := by
      rw [← changedIs]
      split
      · exact ⟨_, (List.take_append_drop _ chain).symm⟩
      · exact ⟨[], (List.append_nil chain).symm⟩
    have counted : changed.length = if file.fp.fptr < file.fp.fsize then
        clustersUpTo (clusterSize start) file.fp.fptr else chain.length := by
      rw [← changedIs]
      split
      · exact List.length_take_of_le few
      · rfl
    obtain ⟨rest, isAround⟩ := around
    have within := cut.tracks.within
    rw [cut.pointer] at within
    have bytes : piece (after.byte start changed) 0 file.fp.fptr =
        stored.bytes.take stored.position := by
      rw [holds.bytes, holds.position, piece_take _ _ _ _ reached]
      refine piece_congr _ _ _ _ (fun index _ below => ?_)
      rw [isAround]
      exact (grown_byte start lost front back changed after placed file rest cut.served.storage
        (fun number available => (cut.seen number available).symm) index (by omega)).symm
    refine ⟨_, after, changed, { stored with
        bytes := stored.bytes.take stored.position,
        clusters := if stored.position < stored.bytes.length then
          clustersUpTo (clusterSize start) stored.position else stored.clusters,
        unsaved := stored.unsaved || decide (stored.position < stored.bytes.length) },
      by rw [OpenFile.serve, ran, ok_bind],
      served_steps start lost front back file after changed cut.served sector entry,
      ⟨cut.tracks, ?_, ?_, ?_, ?_, ?_, ?_, ?_, ?_, ?_, fun dirty => ?_, fun unwritten => ?_⟩, ?_⟩
    · rcases allowed with off | ended
      · obtain ⟨_, inRange, _, _⟩ :=
          storage_cells start lost front back changed _ cut.served.storage
        rw [← cut.pointer] at off within
        rw [cut.tracks.held off]
        refine Or.inr (data_sector_owned start placed changed inRange _ (byte_block start changed _
          (Nat.lt_of_le_of_ne within (fun full => off ?_)))).1
        rw [full, clusterSize, Nat.mul_right_comm, Nat.mul_mod_left]
      · rw [if_neg (Nat.not_lt.mpr ended)] at changedIs
        rcases cut.served.place with kept | owned
        · rw [kept, ← changedIs]
          exact holds.own
        · exact Or.inr owned
    · rw [size]
      exact bytes.symm
    · rw [cut.pointer]
      exact holds.position
    · rw [cut.pointer, size]
    · rw [length, holds.position, holds.clusters]
      exact counted.symm
    · rw [same]
      exact holds.readable
    · rw [same]
      exact writable
    · rw [cut.marked, ← holds.unsaved, holds.position, length]
    · rw [sector, entry]
      exact holds.entryPlaced
    · rw [cut.marked, holds.noted (cut.calmer dirty), Bool.true_or]
    · rw [cut.marked, Bool.or_eq_false_iff, decide_eq_false_iff_not] at unwritten
      obtain ⟨before, ended⟩ := unwritten
      rw [if_neg ended] at changedIs
      have newStarted := cut.tracks.backed.started
      rw [← changedIs] at newStarted
      exact recorded_served start lost chain file stored holds after (cut.served.beside _
        (entry_beside start lost _ _ holds.entryPlaced)) before sector entry (by omega)
        (newStarted.trans started.symm)
    · rw [ByteFile.Answers, if_pos (writable.trans mode)]
      exact ⟨rfl, rfl⟩

/-- `f_sync` leaves the bytes of the sequence, which is saved then. If it was not changed since
the last time nothing is written. -/
theorem sync_serves (reserved : start.fsType = .fat32 → FsiReserved start) (tim : Nat) :
    Serves start lost front back file stored (.sync tim) := by
  have entryPlaced := holds.entryPlaced
  have sized := holds.tracks.backed.sized
  cases written : file.fp.faWritten with
  | false =>
    have already : { stored with unsaved := false } = stored := by
      rw [← holds.unsaved.trans written]
    refine ⟨_, file, chain, stored, ?_, steps_refl start lost front back chain file storage, holds,
      rfl, already.symm⟩
    rw [OpenFile.serve, fSync, validate_ok start lost front back chain file storage
      holds.tracks.backed]
    dsimp only
    rw [if_neg (by simp [written])]
  | true =>
    obtain ⟨after, ran, saved⟩ :=
      f_sync_saves start lost front back chain file placed reserved storage
      holds.tracks entryPlaced written tim
    have object := saved.object
    have filled := view_length file.volume storage.consistent.mounted.sound file.fp.dirSect
      entryPlaced.inside
    have room := entryPlaced.room
    have bytes := chain_bytes start lost front back chain placed file.volume storage
    have disk : diskSize < 2 ^ 32 := by decide
    have small : file.fp.sclust < 2 ^ 32 := by
      obtain ⟨_, inRange, _, _⟩ := storage_cells start lost front back chain _ storage
      rw [holds.tracks.backed.started]
      cases chain with
      | nil => exact Nat.two_pow_pos 32
      | cons clst rest =>
        have below := (inRange clst List.mem_cons_self).2
        have limited := storage.consistent.mounted.limited
        have range := entry_range_small file.volume.fs.fsType
        have count : file.volume.fs.nFatent = start.nFatent := by rw [storage.layout]
        show clst < 2 ^ 32
        omega
    refine ⟨_, after, chain, { stored with unsaved := false }, by rw [OpenFile.serve, ran],
      ⟨saved.storage, fun number available _ apart => saved.others number available apart,
        fun number dir other apart place late early => ?_, by rw [object], by rw [object]⟩,
      ⟨saved.tracks, by rw [object]; exact holds.own, ?_, by rw [object]; exact holds.position,
        by rw [object]; exact holds.reached, holds.clusters, by rw [object]; exact holds.readable,
        by rw [object]; exact holds.writable, by rw [object], by rw [object]; exact entryPlaced,
        fun dirty => ?_, fun _ => ?_⟩, rfl, rfl⟩
    · by_cases here : file.fp.dirSect = number
      · rw [← here, saved.entry]
        exact record_entry_outside _ file.fp tim place (by omega) (by omega)
      · have behind := other.behind
        rw [saved.beside number (entry_beside start lost number dir other) here (by omega)]
    · have size : after.fp.fsize = file.fp.fsize := by rw [object]
      rw [size, seen_piece start placed lost front back chain file after storage saved.seen 0 _
        (by omega)]
      exact holds.bytes
    · rw [object] at dirty
      exact absurd dirty Bool.false_ne_true
    · have recorded := record_entry_holds (file.volume.cache.view file.fp.dirSect) file.fp tim
        (by omega)
        (by omega) small
      have sector : after.fp.dirSect = file.fp.dirSect := by rw [object]
      rw [sector, saved.entry, EntryHolds, object]
      exact recorded

/-- Every request is answered as the sequence of bytes answers it. Proof: one case for each kind
of request. -/
theorem request_serves (reserved : start.fsType = .fat32 → FsiReserved start)
    (request : FileRequest) (allowed : file.fp.Allows request) :
    Serves start lost front back file stored request := by
  cases request with
  | read btr => exact read_serves start lost front back chain file stored placed storage holds btr
  | write buff =>
    exact write_serves start lost front back chain file stored placed storage holds buff allowed
  | seek ofs =>
    exact seek_serves start lost front back chain file stored placed storage holds ofs allowed
  | truncate =>
    exact truncate_serves start lost front back chain file stored placed storage holds allowed
  | sync tim =>
    exact sync_serves start lost front back chain file stored placed storage holds reserved tim

end Holding

end Requests

end EffiLib.FatFs
