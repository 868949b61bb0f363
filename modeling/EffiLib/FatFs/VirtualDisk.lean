import EffiLib.Library.Runs
import EffiLib.Library.Sectors

/-!
# The virtual disk

FatFs reads and writes sectors of a disk that is one file. Both functions check the range
in 32-bit arithmetic, set the file position and transfer from there; what `fseek` returned
is not looked at. A sum that wraps passes the check, its offset is negative as a `long`, and
the transfer goes to wherever the last request left the position.
-/

namespace EffiLib.FatFs

open Runs Sectors

/-- An 8-bit unsigned word. A sector count is one. -/
abbrev u8 := UInt8

/-- A 32-bit unsigned word. A sector number is one. -/
abbrev u32 := UInt32

/-- The size of the disk in bytes. It is `DISK_SIZE`. -/
def diskSize : Nat := 1024 * 1024 * 5

/-- The size of a sector. It is `SECTOR_SIZE`. -/
def sectorSize : Nat := 512

/-- The number of sectors. Sectors are counted from zero. -/
def sectorCount : Nat := diskSize / sectorSize

/-- The results of the disk functions. The model needs the first two. -/
inductive DResult where
  | ok
  | error
  | writeProtected
  | notReady
  | invalidParameter
deriving DecidableEq, Repr

/-- An open file with its position. The position may lie behind the end. -/
structure Stream where
  bytes : List u8
  position : Nat

/-- The bytes of the disk. A transfer past its end may have made the file longer. Those bytes are
no part of the disk. -/
def Stream.disk (stream : Stream) : List u8 := stream.bytes.take diskSize

/-- `fseek` with `SEEK_SET`. The offset is a `long` of 32 bits; a negative one leaves the
position where it is. -/
def fseek (stream : Stream) (offset : u32) : Stream :=
  if offset.toNat < 2 ^ 31 then { stream with position := offset.toNat } else stream

/-- `fread` of single bytes. It stops at the end of the file. -/
def fread (count : Nat) (stream : Stream) : List u8 × Stream :=
  let buffer := (stream.bytes.drop stream.position).take count
  (buffer, { stream with position := stream.position + buffer.length })

/-- `fwrite` of single bytes. Bytes inside the file are accepted, and so many beyond its end. The
position is not behind the end in the runs that are looked at. -/
def fwrite (buffer : List u8) (beyond : Nat) (stream : Stream) : Nat × Stream :=
  let count := min buffer.length (stream.bytes.length - stream.position + beyond)
  (count, ⟨overwrite stream.bytes stream.position (buffer.take count), stream.position + count⟩)

/-- `disk_initialize`: an existing file is opened, a missing one is created with zeros. The
position is where opening or filling has left it. -/
def diskInitialize : Option (List u8) → Stream
  | some bytes => ⟨bytes, 0⟩
  | none => ⟨List.replicate diskSize 0, diskSize⟩

/-- `disk_read`, with what has arrived in the buffer. The check and the offset are computed in
words of 32 bits. -/
def diskRead (pDisk0 : Stream) (sectorNumber : u32) (count : u8) : DResult × List u8 × Stream :=
  if (sectorNumber + count.toUInt32).toNat > sectorCount then (.error, [], pDisk0)
  else
    let (buffer, after) :=
      fread (sectorSize * count.toNat) (fseek pDisk0 (sectorNumber * UInt32.ofNat sectorSize))
    if buffer.length ≠ sectorSize * count.toNat then (.error, buffer, after)
    else (.ok, buffer, after)

/-- `disk_write`. The check and the offset are computed in words of 32 bits. -/
def diskWrite (pDisk0 : Stream) (buffer : List u8) (sectorNumber : u32) (count : u8)
    (beyond : Nat) : DResult × Stream :=
  if (sectorNumber + count.toUInt32).toNat > sectorCount then (.error, pDisk0)
  else
    let (accepted, after) := fwrite (buffer.take (sectorSize * count.toNat)) beyond
      (fseek pDisk0 (sectorNumber * UInt32.ofNat sectorSize))
    if accepted ≠ sectorSize * count.toNat then (.error, after) else (.ok, after)

/-- A request. A write brings a buffer of all its sectors, and how many bytes the system would
take behind the end of the file. -/
inductive Request where
  | read (sectorNumber : u32) (count : u8)
  | write (sectorNumber : u32) (count : u8)
      (buffer : {bytes : List u8 // bytes.length = sectorSize * count.toNat}) (beyond : Nat)

/-- The file behind a request. The answer to the caller is looked at elsewhere. -/
def serve (stream : Stream) : Request → Stream
  | .read sectorNumber count => (diskRead stream sectorNumber count).2.2
  | .write sectorNumber count buffer beyond =>
    (diskWrite stream buffer sectorNumber count beyond).2

/-! ## A store of sectors -/

/-- The file together with what was last written to each sector. The contents say what the disk
should hold. -/
structure Session where
  stream : Stream
  contents : Nat → List u8

/-- The sectors behind a request: a write inside the disk replaces those it names. Other requests
record nothing. -/
def recorded (contents : Nat → List u8) : Request → Nat → List u8
  | .read _ _ => contents
  | .write sectorNumber count buffer _ =>
    if sectorNumber.toNat + count.toNat ≤ sectorCount then
      written sectorSize contents sectorNumber.toNat count.toNat buffer
    else contents

/-- A request, served by the file and recorded. It is the step of a run. -/
def Session.after (session : Session) (request : Request) : Session :=
  ⟨serve session.stream request, recorded session.contents request⟩

/-- A request past the disk is refused and changes no byte of it; a read inside delivers
what was last written to each of its sectors. -/
def Answered (session : Session) : Request → Prop
  | .read sectorNumber count =>
    let reading := diskRead session.stream sectorNumber count
    if sectorNumber.toNat + count.toNat > sectorCount then
      reading.1 = .error ∧ reading.2.2.disk = session.stream.disk
    else
      reading.1 = .ok ∧ reading.2.1.length = sectorSize * count.toNat ∧
        ∀ number < count.toNat,
          sector sectorSize reading.2.1 number = session.contents (sectorNumber.toNat + number)
  | .write sectorNumber count buffer beyond =>
    let writing := diskWrite session.stream buffer sectorNumber count beyond
    sectorNumber.toNat + count.toNat > sectorCount →
      writing.1 = .error ∧ writing.2.disk = session.stream.disk

/-- The sum does not wrap. If it does, a read must find too few bytes behind the position,
and a write too little room, with the disk holding there what is written. -/
def Allowed (session : Session) : Request → Prop
  | .read sectorNumber count =>
    2 ^ 32 ≤ sectorNumber.toNat + count.toNat →
      session.stream.bytes.length < session.stream.position + sectorSize * count.toNat
  | .write sectorNumber count buffer beyond =>
    2 ^ 32 ≤ sectorNumber.toNat + count.toNat →
      session.stream.bytes.length - session.stream.position + beyond < sectorSize * count.toNat ∧
        buffer.val.take (diskSize - session.stream.position) =
          session.stream.disk.drop session.stream.position

/-- The file holds what was last written, and its position is not past its end. It is the
invariant of a run. -/
structure Faithful (session : Session) : Prop where
  complete : diskSize ≤ session.stream.bytes.length
  within : session.stream.position ≤ session.stream.bytes.length
  holds : ∀ number < sectorCount,
    sector sectorSize session.stream.bytes number = session.contents number

/-! ## The range check -/

section Range

variable (sectorNumber : u32) (count : u8)

/-- The sum that is checked. It is computed in 32 bits, so it may wrap. -/
theorem checked_sum :
    (sectorNumber + count.toUInt32).toNat = (sectorNumber.toNat + count.toNat) % 2 ^ 32 := by
  rw [UInt32.toNat_add, UInt8.toNat_toUInt32]

/-- The offset that is sought. It is computed in 32 bits, so it may wrap. -/
theorem sought_offset :
    (sectorNumber * UInt32.ofNat sectorSize).toNat = sectorSize * sectorNumber.toNat % 2 ^ 32 := by
  rw [UInt32.toNat_mul, UInt32.toNat_ofNat_of_lt' (by decide), Nat.mul_comm]

/-- A request passes the check if it is inside the disk, or if its sum wraps. The source compares
the wrapped sum with the number of sectors. -/
theorem check_passes :
    ¬ (sectorNumber + count.toUInt32).toNat > sectorCount ↔
      sectorNumber.toNat + count.toNat ≤ sectorCount ∨
        2 ^ 32 ≤ sectorNumber.toNat + count.toNat := by
  have numberBound := sectorNumber.toNat_lt
  have countBound := count.toNat_lt
  have sectors : sectorCount = 10240 := rfl
  rw [checked_sum, sectors]
  omega

/-- Inside the disk the position becomes the offset of the sector. The offset is not negative as
an `int`. -/
theorem seek_inside (stream : Stream)
    (inside : sectorNumber.toNat + count.toNat ≤ sectorCount) :
    fseek stream (sectorNumber * UInt32.ofNat sectorSize) =
      { stream with position := sectorSize * sectorNumber.toNat } := by
  have sectors : sectorCount = 10240 := rfl
  have exact : (sectorNumber * UInt32.ofNat sectorSize).toNat =
      sectorSize * sectorNumber.toNat := by
    rw [sought_offset, sectorSize]
    omega
  rw [fseek, exact, if_pos (by rw [sectorSize]; omega)]

/-- The sectors are in a file of the size of the disk. So they are transferred whole. -/
theorem window_fits (stream : Stream) (complete : diskSize ≤ stream.bytes.length)
    (inside : sectorNumber.toNat + count.toNat ≤ sectorCount) :
    sectorSize * sectorNumber.toNat + sectorSize * count.toNat ≤ stream.bytes.length := by
  have sizes : diskSize = sectorSize * sectorCount := rfl
  rw [← Nat.mul_add]
  exact (Nat.mul_le_mul_left _ inside).trans (sizes ▸ complete)

/-- Where the sum wraps, the offset is negative and the position stays. `fseek` fails, and the
source does not look at its result. -/
theorem seek_wrapped (stream : Stream)
    (wraps : 2 ^ 32 ≤ sectorNumber.toNat + count.toNat) :
    fseek stream (sectorNumber * UInt32.ofNat sectorSize) = stream := by
  have numberBound := sectorNumber.toNat_lt
  have countBound := count.toNat_lt
  rw [fseek, if_neg]
  rw [sought_offset, sectorSize]
  omega

end Range

/-! ## Reading -/

/-- A read past the disk whose sum does not wrap is refused. Nothing is read, and the file is as
before. -/
theorem read_refused (stream : Stream) (sectorNumber : u32) (count : u8)
    (outside : sectorNumber.toNat + count.toNat > sectorCount)
    (small : sectorNumber.toNat + count.toNat < 2 ^ 32) :
    diskRead stream sectorNumber count = (.error, [], stream) := by
  have checked : (sectorNumber + count.toUInt32).toNat > sectorCount := by
    by_contra passes
    have bounds := (check_passes sectorNumber count).mp passes
    omega
  rw [diskRead, if_pos checked]

/-- A read inside the disk delivers its sectors. The position is behind them then. -/
theorem read_inside (stream : Stream) (sectorNumber : u32) (count : u8)
    (complete : diskSize ≤ stream.bytes.length)
    (inside : sectorNumber.toNat + count.toNat ≤ sectorCount) :
    diskRead stream sectorNumber count =
      (.ok, (stream.bytes.drop (sectorSize * sectorNumber.toNat)).take (sectorSize * count.toNat),
        ⟨stream.bytes, sectorSize * sectorNumber.toNat + sectorSize * count.toNat⟩) := by
  have room := window_fits sectorNumber count stream complete inside
  have whole : ((stream.bytes.drop (sectorSize * sectorNumber.toNat)).take
      (sectorSize * count.toNat)).length = sectorSize * count.toNat := by
    rw [List.length_take, List.length_drop]
    omega
  rw [diskRead, if_neg ((check_passes sectorNumber count).mpr (Or.inl inside)),
    seek_inside sectorNumber count stream inside]
  simp only [fread, whole, ne_eq, not_true_eq_false, if_false]

/-- A read whose sum wraps transfers from the old position. It fails if the file ends before. -/
theorem read_wrapped (stream : Stream) (sectorNumber : u32) (count : u8)
    (within : stream.position ≤ stream.bytes.length)
    (wraps : 2 ^ 32 ≤ sectorNumber.toNat + count.toNat) :
    (diskRead stream sectorNumber count).2.2.bytes = stream.bytes ∧
      (diskRead stream sectorNumber count).2.2.position ≤ stream.bytes.length ∧
      ((diskRead stream sectorNumber count).1 = .error ↔
        stream.bytes.length < stream.position + sectorSize * count.toNat) := by
  rw [diskRead, if_neg ((check_passes sectorNumber count).mpr (Or.inr wraps)),
    seek_wrapped sectorNumber count stream wraps]
  simp only [fread, List.length_take, List.length_drop]
  by_cases short : stream.bytes.length < stream.position + sectorSize * count.toNat
  · rw [if_pos (by omega)]
    exact ⟨rfl, by simp only []; omega, iff_of_true rfl short⟩
  · rw [if_neg (by omega)]
    exact ⟨rfl, by simp only []; omega, iff_of_false (by simp) short⟩

/-! ## Writing -/

/-- A write past the disk whose sum does not wrap is refused. Nothing is written, and the file is
as before. -/
theorem write_refused (stream : Stream) (buffer : List u8) (sectorNumber : u32) (count : u8)
    (beyond : Nat) (outside : sectorNumber.toNat + count.toNat > sectorCount)
    (small : sectorNumber.toNat + count.toNat < 2 ^ 32) :
    diskWrite stream buffer sectorNumber count beyond = (.error, stream) := by
  have checked : (sectorNumber + count.toUInt32).toNat > sectorCount := by
    by_contra passes
    have bounds := (check_passes sectorNumber count).mp passes
    omega
  rw [diskWrite, if_pos checked]

/-- A write inside the disk puts its buffer over its sectors. The position is behind them then. -/
theorem write_inside (stream : Stream) (buffer : List u8) (sectorNumber : u32) (count : u8)
    (beyond : Nat) (complete : diskSize ≤ stream.bytes.length)
    (filled : buffer.length = sectorSize * count.toNat)
    (inside : sectorNumber.toNat + count.toNat ≤ sectorCount) :
    diskWrite stream buffer sectorNumber count beyond =
      (.ok, ⟨overwrite stream.bytes (sectorSize * sectorNumber.toNat) buffer,
        sectorSize * sectorNumber.toNat + sectorSize * count.toNat⟩) := by
  have room := window_fits sectorNumber count stream complete inside
  have all : min (sectorSize * count.toNat)
      (stream.bytes.length - sectorSize * sectorNumber.toNat + beyond) =
        sectorSize * count.toNat := Nat.min_eq_left (by omega)
  rw [diskWrite, if_neg ((check_passes sectorNumber count).mpr (Or.inl inside)),
    seek_inside sectorNumber count stream inside, ← filled, List.take_length]
  simp only [fwrite, filled, all, ne_eq, not_true_eq_false, if_false]
  rw [← filled, List.take_length]

/-- What `fwrite` has accepted is in the file, in front of the position. Behind the end the file
grows as far as the outside lets it. -/
theorem fwrite_taken (buffer : List u8) (beyond taken : Nat) (stream : Stream)
    (accepted : min buffer.length (stream.bytes.length - stream.position + beyond) = taken) :
    fwrite buffer beyond stream =
      (taken, ⟨overwrite stream.bytes stream.position (buffer.take taken),
        stream.position + taken⟩) := by
  subst accepted
  rfl

/-- A transfer of some bytes to the position, which is then behind them. The file does not get
shorter. -/
theorem transfer_bounds (stream : Stream) (buffer : List u8) (taken : Nat)
    (complete : diskSize ≤ stream.bytes.length) (within : stream.position ≤ stream.bytes.length)
    (available : taken ≤ buffer.length) :
    diskSize ≤ (overwrite stream.bytes stream.position (buffer.take taken)).length ∧
      stream.position + taken ≤
        (overwrite stream.bytes stream.position (buffer.take taken)).length := by
  have written : (buffer.take taken).length = taken := List.length_take_of_le available
  rw [overwrite, List.length_append, List.length_append, List.length_take_of_le within, written,
    List.length_drop]
  omega

/-- A write whose sum wraps goes to the old position, as far as there is room. The offset is
negative, so the position stays where it was. -/
theorem write_wrapped (stream : Stream) (buffer : List u8) (sectorNumber : u32) (count : u8)
    (beyond : Nat) (complete : diskSize ≤ stream.bytes.length)
    (within : stream.position ≤ stream.bytes.length)
    (filled : buffer.length = sectorSize * count.toNat)
    (wraps : 2 ^ 32 ≤ sectorNumber.toNat + count.toNat) :
    let written := diskWrite stream buffer sectorNumber count beyond
    diskSize ≤ written.2.bytes.length ∧ written.2.position ≤ written.2.bytes.length ∧
      (written.1 = .error ∧ written.2.disk = stream.disk ↔
        stream.bytes.length - stream.position + beyond < sectorSize * count.toNat ∧
          buffer.take (diskSize - stream.position) = stream.disk.drop stream.position) := by
  rw [diskWrite, if_neg ((check_passes sectorNumber count).mpr (Or.inr wraps)),
    seek_wrapped sectorNumber count stream wraps, ← filled, List.take_length]
  by_cases short : stream.bytes.length - stream.position + beyond < buffer.length
  · have available := Nat.le_of_lt short
    have moved := fwrite_taken buffer beyond _ stream (Nat.min_eq_right available)
    generalize accepted : stream.bytes.length - stream.position + beyond = taken
      at short available moved
    obtain ⟨room, reached⟩ := transfer_bounds stream buffer taken complete within available
    have kept := overwrite_keeps_front stream.bytes (buffer.take taken) stream.position diskSize
      within (by rw [List.length_take_of_le available]; omega)
    rw [List.take_take, Nat.min_eq_left (by omega)] at kept
    rw [moved]
    dsimp only
    rw [if_pos (Nat.ne_of_lt short)]
    refine ⟨room, reached, ?_⟩
    simp only [short, true_and]
    exact kept
  · have moved := fwrite_taken buffer beyond _ stream (Nat.min_eq_left (Nat.le_of_not_lt short))
    obtain ⟨room, reached⟩ := transfer_bounds stream buffer _ complete within (Nat.le_refl _)
    rw [moved]
    dsimp only
    rw [if_neg (fun other => other rfl)]
    exact ⟨room, reached, iff_of_false (by simp) (fun both => short both.1)⟩

/-! ## Runs of requests -/

/-- Files that agree on the disk agree on its sectors. What is behind the disk in the file does
not matter. -/
theorem same_sectors (stream other : Stream) (same : stream.disk = other.disk) (number : Nat)
    (inside : number < sectorCount) :
    sector sectorSize stream.bytes number = sector sectorSize other.bytes number := by
  have sizes : diskSize = sectorSize * sectorCount := rfl
  rw [← sector_take sectorSize stream.bytes sectorCount number inside,
    ← sector_take sectorSize other.bytes sectorCount number inside, ← sizes]
  exact congrArg (sector sectorSize · number) same

/-- On a faithful file a request is answered exactly if it is allowed. Proof: a request inside the
disk is answered, and one that wraps by the position and the bytes there. -/
theorem answered_exactly (session : Session) (request : Request) (faithful : Faithful session) :
    Answered session request ↔ Allowed session request := by
  have sectors : sectorCount < 2 ^ 32 := by decide
  cases request with
  | read sectorNumber count =>
    rw [Answered, Allowed]
    by_cases inside : sectorNumber.toNat + count.toNat ≤ sectorCount
    · -- Every sector of the window is one of the disk.
      have held : ∀ number < count.toNat,
          sector sectorSize ((session.stream.bytes.drop (sectorSize * sectorNumber.toNat)).take
            (sectorSize * count.toNat)) number =
          session.contents (sectorNumber.toNat + number) := by
        intro number early
        rw [sector_window sectorSize _ _ _ number early]
        exact faithful.holds _ (by omega)
      have room := window_fits sectorNumber count session.stream faithful.complete inside
      rw [read_inside session.stream sectorNumber count faithful.complete inside]
      dsimp only
      rw [if_neg (Nat.not_lt.mpr inside)]
      refine iff_of_true ⟨rfl, ?_, held⟩ (fun wraps => absurd wraps (by omega))
      rw [List.length_take, List.length_drop]
      omega
    · by_cases wraps : 2 ^ 32 ≤ sectorNumber.toNat + count.toNat
      · obtain ⟨same, _, refused⟩ :=
          read_wrapped session.stream sectorNumber count faithful.within wraps
        simp only [gt_iff_lt, Nat.not_le.mp inside, if_true, wraps, true_imp_iff, ← refused,
          Stream.disk, same, and_true]
      · rw [read_refused session.stream sectorNumber count (Nat.not_le.mp inside)
          (Nat.lt_of_not_le wraps)]
        exact iff_of_true (by simp [Nat.not_le.mp inside]) (fun past => absurd past wraps)
  | write sectorNumber count buffer beyond =>
    rw [Answered, Allowed]
    by_cases wraps : 2 ^ 32 ≤ sectorNumber.toNat + count.toNat
    · obtain ⟨_, _, refused⟩ := write_wrapped session.stream buffer sectorNumber count beyond
        faithful.complete faithful.within buffer.property wraps
      have past : sectorNumber.toNat + count.toNat > sectorCount := by omega
      simp only [past, wraps, true_imp_iff, ← refused]
    · refine iff_of_true (fun past => ?_) (fun past => absurd past wraps)
      have refused := write_refused session.stream buffer sectorNumber count beyond past
        (Nat.lt_of_not_le wraps)
      exact ⟨congrArg Prod.fst refused, congrArg (Stream.disk ∘ Prod.snd) refused⟩

/-- A request past the disk that leaves every byte of it leaves a faithful file. The position may
be another. -/
theorem unchanged_faithful (session : Session) (after : Stream) (faithful : Faithful session)
    (complete : diskSize ≤ after.bytes.length) (within : after.position ≤ after.bytes.length)
    (same : after.disk = session.stream.disk) : Faithful ⟨after, session.contents⟩ :=
  ⟨complete, within, fun number inside =>
    (same_sectors after session.stream same number inside).trans (faithful.holds number inside)⟩

/-- An answered request leaves a faithful file. So the condition can be asked of every request of
a run. -/
theorem answered_keeps (session : Session) (request : Request) (faithful : Faithful session)
    (answered : Answered session request) : Faithful (session.after request) := by
  cases request with
  | read sectorNumber count =>
    rw [Session.after, serve, recorded]
    by_cases inside : sectorNumber.toNat + count.toNat ≤ sectorCount
    · have room := window_fits sectorNumber count session.stream faithful.complete inside
      rw [read_inside session.stream sectorNumber count faithful.complete inside]
      exact ⟨faithful.complete, room, faithful.holds⟩
    · by_cases wraps : 2 ^ 32 ≤ sectorNumber.toNat + count.toNat
      · obtain ⟨same, within, _⟩ :=
          read_wrapped session.stream sectorNumber count faithful.within wraps
        exact unchanged_faithful session _ faithful (by rw [same]; exact faithful.complete)
          (by rw [same]; exact within) (congrArg (List.take diskSize) same)
      · rw [read_refused session.stream sectorNumber count (Nat.not_le.mp inside)
          (Nat.lt_of_not_le wraps)]
        exact faithful
  | write sectorNumber count buffer beyond =>
    rw [Answered] at answered
    rw [Session.after, serve, recorded]
    by_cases inside : sectorNumber.toNat + count.toNat ≤ sectorCount
    · have room := window_fits sectorNumber count session.stream faithful.complete inside
      have longer := overwrite_length session.stream.bytes buffer (sectorSize * sectorNumber.toNat)
        (by rw [buffer.property]; exact room)
      rw [if_pos inside, write_inside session.stream buffer sectorNumber count beyond
        faithful.complete buffer.property inside]
      refine ⟨by rw [longer]; exact faithful.complete, ?_, fun number early => ?_⟩
      · rw [longer]
        exact room
      · rw [sector_overwrite sectorSize _ _ _ _ number buffer.property
          (by rw [Nat.mul_add]; exact room)]
        simp only [written, faithful.holds number early]
    · rw [if_neg inside]
      obtain ⟨_, same⟩ := answered (Nat.lt_of_not_le inside)
      by_cases wraps : 2 ^ 32 ≤ sectorNumber.toNat + count.toNat
      · obtain ⟨complete, within, _⟩ := write_wrapped session.stream buffer sectorNumber count
          beyond faithful.complete faithful.within buffer.property wraps
        exact unchanged_faithful session _ faithful complete within same
      · rw [write_refused session.stream buffer sectorNumber count beyond
          (Nat.lt_of_not_le inside) (Nat.lt_of_not_le wraps)]
        exact faithful

/-- Over a disk file of the exact size, every request of a run is answered exactly if every
request of it is allowed. Proof: on a faithful file a request is answered exactly if it is
allowed, and an answered one leaves the file faithful. -/
theorem disk_stores (stream : Stream) (requests : List Request)
    (whole : stream.bytes.length = diskSize) (within : stream.position ≤ diskSize) :
    Throughout Session.after Answered ⟨stream, sector sectorSize stream.bytes⟩ requests ↔
      Throughout Session.after Allowed ⟨stream, sector sectorSize stream.bytes⟩ requests :=
  throughout_exactly Session.after Faithful Answered Allowed answered_exactly answered_keeps _
    requests ⟨whole.ge, whole.symm ▸ within, fun _ _ => rfl⟩

/-- A sector is written and read back; a request past the disk between the two is refused. The
file is a new one of the size of the disk. -/
theorem written_read_back :
    Throughout Session.after Answered
      ⟨diskInitialize none, sector sectorSize (diskInitialize none).bytes⟩
      [.write 3 1 ⟨List.replicate 512 7, List.length_replicate⟩ 0, .read 10240 1, .read 3 1] :=
  (disk_stores (diskInitialize none)
    [.write 3 1 ⟨List.replicate 512 7, List.length_replicate⟩ 0, .read 10240 1, .read 3 1]
    List.length_replicate (Nat.le_refl _)).mpr
    ⟨fun wraps => absurd wraps (by decide), fun wraps => absurd wraps (by decide),
      fun wraps => absurd wraps (by decide), trivial⟩

/-- On an opened disk a read of the sector with the greatest number delivers the first sector. It
is refused nowhere. -/
theorem wild_sector_read :
    let opened := diskInitialize (some (List.replicate diskSize 7))
    (diskRead opened 0xFFFFFFFF 1).1 = .ok ∧
      (diskRead opened 0xFFFFFFFF 1).2.1 = List.replicate sectorSize 7 ∧
      ¬ Throughout Session.after Answered ⟨opened, sector sectorSize opened.bytes⟩
        [.read 0xFFFFFFFF 1] := by
  have sizes : sectorSize ≤ diskSize := by decide
  have wraps : 2 ^ 32 ≤ (0xFFFFFFFF : u32).toNat + (1 : u8).toNat := by decide
  have delivered : diskRead (diskInitialize (some (List.replicate diskSize 7))) 0xFFFFFFFF 1 =
      (.ok, List.replicate sectorSize 7, ⟨List.replicate diskSize 7, sectorSize⟩) := by
    have one : sectorSize * (1 : u8).toNat = sectorSize := Nat.mul_one _
    rw [diskRead, if_neg (by decide), seek_wrapped _ 1 _ wraps, one]
    simp [fread, diskInitialize, Nat.min_eq_left sizes]
  refine ⟨congrArg Prod.fst delivered, congrArg (fun reading => reading.2.1) delivered, ?_⟩
  rintro ⟨answered, _⟩
  rw [Answered] at answered
  dsimp only at answered
  rw [if_pos (by decide), delivered] at answered
  exact absurd answered.1 (by decide)

end EffiLib.FatFs
