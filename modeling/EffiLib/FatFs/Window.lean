import EffiLib.FatFs.VirtualDisk
import EffiLib.Library.BlockCache

/-!
# The window on the volume

FatFs looks at the FAT and the directories through a window of one sector. A changed window
is written back before another sector is loaded, and a sector of the FAT is then written to
every copy of the FAT as well. The window is a cache of one block over the sectors of the
disk.
-/

namespace EffiLib.FatFs

open Sectors BlockCache

/-- The results of the file functions. The functions of this configuration use a part of them. -/
inductive FResult where
  | ok
  | diskErr
  | intErr
  | notReady
  | noFile
  | noPath
  | invalidName
  | denied
  | exist
  | invalidObject
  | writeProtected
  | invalidDrive
  | notEnabled
  | noFilesystem
  | mkfsAborted
  | timeout
  | locked
  | notEnoughCore
  | tooManyOpenFiles
  | invalidParameter
deriving DecidableEq, Repr

/-- The sub-type of a FAT volume, which is none while the volume is not mounted. It decides how an
entry is read. -/
inductive FsType where
  | unmounted
  | fat12
  | fat16
  | fat32
deriving DecidableEq, Repr

/-- The file system object. Its words are numbers; a sum that the code lets wrap is reduced. The
fields that serve other configurations are left out. -/
structure FATFS where
  fsType : FsType
  csize : Nat
  nFats : Nat
  wflag : Bool
  fsiFlag : Bool
  id : Nat
  nRootdir : Nat
  lastClust : Nat
  freeClust : Nat
  fsiSector : Nat
  nFatent : Nat
  fsize : Nat
  fatbase : Nat
  dirbase : Nat
  database : Nat
  winsect : Nat
  win : List u8

/-- The file system object, the disk file, and how many bytes the system takes behind its end. All
that the functions change is in these three. -/
structure Volume where
  fs : FATFS
  pDisk0 : Stream
  beyond : Nat

/-- A sum of words of 32 bits. It wraps like the source's. -/
def dwordSum (left right : Nat) : Nat := (left + right) % 2 ^ 32

/-- A difference of such words. It wraps like the source's. -/
def dwordDiff (left right : Nat) : Nat := (left + (2 ^ 32 - right)) % 2 ^ 32

/-- Write the window to a sector. The answer of the disk is kept. -/
def writeWindow (volume : Volume) (sector : Nat) : DResult × Volume :=
  let (res, pDisk0) :=
    diskWrite volume.pDisk0 volume.fs.win (UInt32.ofNat sector) 1 volume.beyond
  (res, { volume with pDisk0 })

/-- Read a sector into the window. A short read leaves the end of the window as it was. -/
def readWindow (volume : Volume) (sector : Nat) : DResult × Volume :=
  let (res, buffer, pDisk0) := diskRead volume.pDisk0 (UInt32.ofNat sector) 1
  (res, { volume with fs := { volume.fs with win := overwrite volume.fs.win 0 buffer }, pDisk0 })

/-- Write the window to so many further copies of the FAT, whatever the disk answers. The last of
them is the last FAT. -/
def writeCopies : Nat → Nat → Volume → Volume
  | 0, _, volume => volume
  | nf + 1, wsect, volume =>
    let wsect := dwordSum wsect volume.fs.fsize
    writeCopies nf wsect (writeWindow volume wsect).2

/-- The first part of `move_window`: write a dirty window back. It is clean behind that, even if a
copy failed. -/
def writeBack (volume : Volume) : FResult × Volume :=
  let wsect := volume.fs.winsect
  if volume.fs.wflag then
    match writeWindow volume wsect with
    | (.ok, written) =>
      let cleared := { written with fs := { written.fs with wflag := false } }
      if wsect < dwordSum cleared.fs.fatbase cleared.fs.fsize then
        (.ok, writeCopies (cleared.fs.nFats - 1) wsect cleared)
      else (.ok, cleared)
    | (_, failed) => (.diskErr, failed)
  else (.ok, volume)

/-- `move_window`. Moving to sector zero only writes a dirty window back. Where reading fails the
window still names the old sector. -/
def moveWindow (volume : Volume) (sector : Nat) : FResult × Volume :=
  if volume.fs.winsect = sector then (.ok, volume)
  else
    match writeBack volume with
    | (.ok, written) =>
      if sector = 0 then (.ok, written)
      else
        match readWindow written sector with
        | (.ok, loaded) => (.ok, { loaded with fs := { loaded.fs with winsect := sector } })
        | (_, failed) => (.diskErr, failed)
    | (res, failed) => (res, failed)

/-! ## The window as a cache -/

/-- The sectors of the further copies of the FAT that belong to one of the first. They are one FAT
apart. -/
def copyNumbers (fsize : Nat) : Nat → Nat → List Nat
  | 0, _ => []
  | nf + 1, number => (number + fsize) :: copyNumbers fsize nf (number + fsize)

/-- The copies of a sector: a sector of the first FAT has one in each other FAT. All other sectors
have none. -/
def copies (fs : FATFS) (number : Nat) : List Nat :=
  if fs.fatbase ≤ number ∧ number < fs.fatbase + fs.fsize then
    copyNumbers fs.fsize (fs.nFats - 1) number
  else []

/-- The sectors of the disk with the one in the window. Sector zero stands for none. It is the
abstract cache that the window implements. -/
def Volume.cache (volume : Volume) : Cache (List u8) where
  store := sector sectorSize volume.pDisk0.bytes
  held := if volume.fs.winsect = 0 then none else some volume.fs.winsect
  window := volume.fs.win
  dirty := volume.fs.wflag

/-- The FAT copies follow each other on the disk, behind a reserved sector. No sector of a FAT is
sector zero. -/
structure Placed (fs : FATFS) : Prop where
  reserved : 0 < fs.fatbase
  present : 0 < fs.nFats
  inside : fs.fatbase + fs.nFats * fs.fsize ≤ sectorCount

/-- The disk is whole, the window is a sector of it, and the cache is coherent. It is the
invariant of the window. -/
structure Sound (volume : Volume) : Prop where
  placed : Placed volume.fs
  complete : diskSize ≤ volume.pDisk0.bytes.length
  filled : volume.fs.win.length = sectorSize
  within : volume.fs.winsect < sectorCount
  behind : volume.fs.wflag = true → volume.fs.fatbase ≤ volume.fs.winsect
  coherent : Coherent (copies volume.fs) volume.cache

/-- Nothing but the window has changed in the file system object. The layout and the counters are
among what has not. -/
def SameSystem (fs after : FATFS) : Prop :=
  after = { fs with wflag := after.wflag, winsect := after.winsect, win := after.win }

/-- A sector is in the copies of another if it is so many FATs behind it. The sector itself is not
among them. -/
theorem mem_copy_numbers (fsize nf number copy : Nat) :
    copy ∈ copyNumbers fsize nf number ↔
      ∃ index, 0 < index ∧ index ≤ nf ∧ copy = number + index * fsize := by
  induction nf generalizing number with
  | zero =>
    simp only [copyNumbers, List.not_mem_nil, false_iff]
    rintro ⟨index, positive, early, -⟩
    omega
  | succ nf inductionHypothesis =>
    rw [copyNumbers, List.mem_cons, inductionHypothesis]
    constructor
    · rintro (rfl | ⟨index, positive, early, rfl⟩)
      · exact ⟨1, by omega, by omega, by rw [Nat.one_mul]⟩
      · exact ⟨index + 1, by omega, by omega, by rw [Nat.succ_mul]; omega⟩
    · rintro ⟨index, positive, early, rfl⟩
      rcases Nat.eq_or_lt_of_le positive with rfl | later
      · exact Or.inl (by rw [Nat.one_mul])
      · obtain ⟨before, rfl⟩ := Nat.exists_eq_add_of_le' positive
        exact Or.inr ⟨before, by omega, by omega, by rw [Nat.succ_mul]; omega⟩

/-- A copy is a whole number of FATs behind its sector of the first FAT. Sectors outside of the
first FAT have none. -/
theorem mem_copies (fs : FATFS) (number copy : Nat) :
    copy ∈ copies fs number ↔ fs.fatbase ≤ number ∧ number < fs.fatbase + fs.fsize ∧
      ∃ index, 0 < index ∧ index < fs.nFats ∧ copy = number + index * fs.fsize := by
  rw [copies]
  split
  · rename_i first
    rw [mem_copy_numbers]
    simp only [first.1, first.2, true_and]
    refine exists_congr fun index => ?_
    constructor
    · rintro ⟨positive, early, rfl⟩
      exact ⟨positive, by omega, rfl⟩
    · rintro ⟨positive, early, rfl⟩
      exact ⟨positive, by omega, rfl⟩
  · rename_i outside
    simp only [List.not_mem_nil, false_iff]
    rintro ⟨above, below, -⟩
    exact outside ⟨above, below⟩

/-- A copy is behind the first FAT. It lies in one of the further FATs. -/
theorem copy_behind (fs : FATFS) (number copy : Nat) (isCopy : copy ∈ copies fs number) :
    fs.fatbase + fs.fsize ≤ copy ∧ copy < fs.fatbase + fs.nFats * fs.fsize := by
  obtain ⟨above, below, index, positive, early, rfl⟩ := (mem_copies fs number copy).mp isCopy
  have one : fs.fsize ≤ index * fs.fsize := Nat.le_mul_of_pos_left _ positive
  have all : (index + 1) * fs.fsize ≤ fs.nFats * fs.fsize := Nat.mul_le_mul_right _ early
  rw [Nat.succ_mul] at all
  omega

/-- The copies of different sectors are apart. A copy lies outside of the first FAT, so it has
none of its own. -/
theorem copies_separate (fs : FATFS) : Separate (copies fs) where
  sole := by
    intro number other copy isCopy ofOther
    obtain ⟨above, below, index, -, -, rfl⟩ := (mem_copies fs number copy).mp isCopy
    obtain ⟨otherAbove, otherBelow, place, -, -, same⟩ := (mem_copies fs other _).mp ofOther
    obtain ⟨offset, rfl⟩ := Nat.exists_eq_add_of_le above
    obtain ⟨otherOffset, rfl⟩ := Nat.exists_eq_add_of_le otherAbove
    have remainders := congrArg (· % fs.fsize)
      (show offset + index * fs.fsize = otherOffset + place * fs.fsize by omega)
    simp only [Nat.add_mul_mod_self_right] at remainders
    rw [Nat.mod_eq_of_lt (by omega), Nat.mod_eq_of_lt (by omega)] at remainders
    rw [remainders]
  last := by
    intro number copy isCopy
    have behind := copy_behind fs number copy isCopy
    rw [copies, if_neg (by omega)]

/-- A sector outside the further FATs is the copy of none. It is written once. -/
theorem primary_outside (fs : FATFS) (number : Nat)
    (outside : number < fs.fatbase + fs.fsize ∨ fs.fatbase + fs.nFats * fs.fsize ≤ number) :
    Primary (copies fs) number := by
  intro other isCopy
  have behind := copy_behind fs other number isCopy
  omega

/-! ## Transfers of the window -/

/-- A small sum does not wrap. The sums of sector numbers are such. -/
theorem dword_sum_small (left right : Nat) (small : left + right < 2 ^ 32) :
    dwordSum left right = left + right := Nat.mod_eq_of_lt small

/-- A difference that stays positive does not wrap. The source subtracts where the difference is
known to be positive. -/
theorem dword_diff_small (left right : Nat) (small : left < 2 ^ 32) (less : right ≤ left) :
    dwordDiff left right = left - right := by
  rw [dwordDiff]
  omega

/-- The number of a sector of the disk is a word. There are 10240 of them. -/
theorem sector_word (number : Nat) (inside : number < sectorCount) :
    (UInt32.ofNat number).toNat = number := by
  have sectors : sectorCount = 10240 := rfl
  exact UInt32.toNat_ofNat_of_lt' (by rw [UInt32.size]; omega)

/-- Writing a window replaces one sector of the store. The window is as long as a sector. -/
theorem overwrite_spread (bytes win : List u8) (number : Nat)
    (filled : win.length = sectorSize) (complete : diskSize ≤ bytes.length)
    (inside : number < sectorCount) :
    sector sectorSize (overwrite bytes (sectorSize * number) win) =
      spread (sector sectorSize bytes) [number] win := by
  have sizes : diskSize = sectorSize * sectorCount := rfl
  have room : sectorSize * (number + 1) ≤ bytes.length :=
    (Nat.mul_le_mul_left _ inside).trans (sizes ▸ complete)
  funext other
  rw [sector_overwrite sectorSize bytes win number 1 other (by rw [filled, Nat.mul_one]) room,
    written, spread]
  by_cases same : other = number
  · subst same
    rw [if_pos (by omega), if_pos (List.mem_singleton.mpr rfl), Nat.sub_self, sector, Nat.mul_zero,
      List.drop_zero, List.take_of_length_le filled.le]
  · rw [if_neg (by omega), if_neg (fun member => same (List.mem_singleton.mp member))]

/-- On a whole disk the window is written to a sector inside it. The range check passes, and
nothing wraps. -/
theorem write_window_inside (volume : Volume) (number : Nat)
    (filled : volume.fs.win.length = sectorSize)
    (complete : diskSize ≤ volume.pDisk0.bytes.length) (inside : number < sectorCount) :
    ∃ pDisk0, writeWindow volume number = (.ok, { volume with pDisk0 }) ∧
      diskSize ≤ pDisk0.bytes.length ∧
      sector sectorSize pDisk0.bytes =
        spread (sector sectorSize volume.pDisk0.bytes) [number] volume.fs.win := by
  have sizes : diskSize = sectorSize * sectorCount := rfl
  have room : sectorSize * number + volume.fs.win.length ≤ volume.pDisk0.bytes.length := by
    rw [filled, ← Nat.mul_succ]
    exact (Nat.mul_le_mul_left _ inside).trans (sizes ▸ complete)
  have wrote := write_inside volume.pDisk0 volume.fs.win (UInt32.ofNat number) 1 volume.beyond
    complete (by rw [filled]; rfl) (by rw [sector_word number inside]; exact inside)
  rw [sector_word number inside] at wrote
  refine ⟨_, by rw [writeWindow, wrote], ?_, ?_⟩
  · rw [overwrite_length _ _ _ room]
    exact complete
  · exact overwrite_spread _ _ number filled complete inside

/-- On a whole disk a sector inside it is read into the window. The range check passes, and
nothing wraps. -/
theorem read_window_inside (volume : Volume) (number : Nat)
    (filled : volume.fs.win.length = sectorSize)
    (complete : diskSize ≤ volume.pDisk0.bytes.length) (inside : number < sectorCount) :
    ∃ position, readWindow volume number =
      (.ok, { volume with
        fs := { volume.fs with win := sector sectorSize volume.pDisk0.bytes number },
        pDisk0 := ⟨volume.pDisk0.bytes, position⟩ }) ∧
      (sector sectorSize volume.pDisk0.bytes number).length = sectorSize := by
  have sizes : diskSize = sectorSize * sectorCount := rfl
  have room : sectorSize * number + sectorSize ≤ volume.pDisk0.bytes.length := by
    rw [← Nat.mul_succ]
    exact (Nat.mul_le_mul_left _ inside).trans (sizes ▸ complete)
  have arrived := read_inside volume.pDisk0 (UInt32.ofNat number) 1 complete
    (by rw [sector_word number inside]; exact inside)
  rw [sector_word number inside] at arrived
  have whole : (sector sectorSize volume.pDisk0.bytes number).length = sectorSize := by
    rw [sector, List.length_take, List.length_drop]
    omega
  refine ⟨sectorSize * number + sectorSize, ?_, whole⟩
  have one : sectorSize * (1 : u8).toNat = sectorSize := rfl
  rw [readWindow, arrived, one]
  dsimp only
  rw [overwrite, List.take_zero, List.nil_append, Nat.zero_add, ← sector, whole,
    List.drop_of_length_le filled.le, List.append_nil]

/-- Writing to more sectors. The block is the same for both. -/
theorem spread_spread {β : Type} (store : Nat → β) (front back : List Nat) (block : β) :
    spread (spread store front block) back block = spread store (front ++ back) block := by
  funext number
  simp only [spread, List.mem_append]
  by_cases early : number ∈ front <;> by_cases late : number ∈ back <;> simp [early, late]

/-- The window goes to all further copies. Proof: by induction on the number of copies. -/
theorem write_copies_inside (volume : Volume) (nf number : Nat)
    (filled : volume.fs.win.length = sectorSize)
    (complete : diskSize ≤ volume.pDisk0.bytes.length)
    (inside : number + nf * volume.fs.fsize < sectorCount) :
    ∃ pDisk0, writeCopies nf number volume = { volume with pDisk0 } ∧
      diskSize ≤ pDisk0.bytes.length ∧
      sector sectorSize pDisk0.bytes = spread (sector sectorSize volume.pDisk0.bytes)
        (copyNumbers volume.fs.fsize nf number) volume.fs.win := by
  have sectors : sectorCount < 2 ^ 32 := by decide
  induction nf generalizing volume number with
  | zero => exact ⟨volume.pDisk0, rfl, complete, by funext other; simp [spread, copyNumbers]⟩
  | succ nf inductionHypothesis =>
    rw [Nat.succ_mul] at inside
    have sum := dword_sum_small number volume.fs.fsize (by omega)
    obtain ⟨after, wrote, whole, first⟩ :=
      write_window_inside volume (number + volume.fs.fsize) filled complete (by omega)
    obtain ⟨final, rest, finalWhole, others⟩ := inductionHypothesis { volume with pDisk0 := after }
      (number + volume.fs.fsize) filled whole (by dsimp only; omega)
    refine ⟨final, ?_, finalWhole, ?_⟩
    · rw [writeCopies, sum, wrote]
      exact rest
    · rw [others, first, copyNumbers, spread_spread]
      rfl

/-! ## The window refines the cache -/

/-- A FAT area inside the disk has no sum that wraps. The end of the first FAT is such a sum. -/
theorem placed_sums (fs : FATFS) (placed : Placed fs) :
    dwordSum fs.fatbase fs.fsize = fs.fatbase + fs.fsize ∧
      fs.fatbase + fs.fsize ≤ sectorCount := by
  have sectors : sectorCount = 10240 := rfl
  have one : fs.fsize ≤ fs.nFats * fs.fsize := Nat.le_mul_of_pos_left _ placed.present
  have inside := placed.inside
  exact ⟨dword_sum_small _ _ (by omega), by omega⟩

/-- A dirty window holds its sector. Only sectors from the FAT on are changed through the
window. -/
theorem dirty_held (volume : Volume) (sound : Sound volume) (dirty : volume.fs.wflag = true) :
    volume.cache.held = some volume.fs.winsect ∧ volume.fs.fatbase ≤ volume.fs.winsect := by
  have reserved := sound.placed.reserved
  have behind := sound.behind dirty
  exact ⟨if_neg (by omega), behind⟩

/-- Writing back is the flush of the cache. A clean window is what the store has already. -/
theorem write_back_flushes (volume : Volume) (sound : Sound volume) :
    ∃ pDisk0, writeBack volume =
        (.ok, ⟨{ volume.fs with wflag := false }, pDisk0, volume.beyond⟩) ∧
      diskSize ≤ pDisk0.bytes.length ∧
      sector sectorSize pDisk0.bytes = (volume.cache.flush (copies volume.fs)).store := by
  cases dirty : volume.fs.wflag with
  | false =>
    refine ⟨volume.pDisk0, ?_, sound.complete, ?_⟩
    · rw [writeBack]
      simp only [dirty]
      rw [if_neg (by simp), ← dirty]
    · rw [flush_clean _ _ dirty]
      rfl
  | true =>
    obtain ⟨held, behind⟩ := dirty_held volume sound dirty
    obtain ⟨sum, _⟩ := placed_sums volume.fs sound.placed
    obtain ⟨written, wrote, whole, first⟩ := write_window_inside volume volume.fs.winsect
      sound.filled sound.complete sound.within
    rw [flush_dirty _ _ _ held dirty]
    by_cases inFat : volume.fs.winsect < volume.fs.fatbase + volume.fs.fsize
    · have nf := sound.placed.present
      have fits : volume.fs.winsect + (volume.fs.nFats - 1) * volume.fs.fsize < sectorCount := by
        have inside := sound.placed.inside
        rw [show volume.fs.nFats = volume.fs.nFats - 1 + 1 by omega, Nat.succ_mul] at inside
        omega
      obtain ⟨final, wroteCopies, finalWhole, others⟩ := write_copies_inside
        ⟨{ volume.fs with wflag := false }, written, volume.beyond⟩ (volume.fs.nFats - 1)
        volume.fs.winsect sound.filled whole fits
      refine ⟨final, ?_, finalWhole, ?_⟩
      · rw [writeBack]
        simp only [dirty, if_true, wrote, sum, if_pos inFat]
        exact congrArg (Prod.mk FResult.ok) wroteCopies
      · rw [others, first, spread_spread, copies, if_pos ⟨behind, inFat⟩]
        rfl
    · refine ⟨written, ?_, whole, ?_⟩
      · rw [writeBack]
        simp only [dirty, if_true, wrote, sum, if_neg inFat]
      · rw [first, copies, if_neg (fun both => inFat both.2)]
        rfl

/-- A system with another window has its FAT at the same place. The copies are counted from
there. -/
theorem same_system_copies (fs after : FATFS) (same : SameSystem fs after) :
    copies after = copies fs := by
  rw [same]
  rfl

/-- A system with another window is placed as well. The place of its FAT is unchanged. -/
theorem same_system_placed (fs after : FATFS) (same : SameSystem fs after) (placed : Placed fs) :
    Placed after := by
  rw [same]
  exact ⟨placed.reserved, placed.present, placed.inside⟩

/-- Moving the window to a sector of the disk fetches it in the cache. A sound volume stays
sound. -/
theorem move_window_fetches (volume : Volume) (sound : Sound volume) (number : Nat)
    (named : 0 < number) (inside : number < sectorCount) :
    ∃ after, moveWindow volume number = (.ok, after) ∧ SameSystem volume.fs after.fs ∧
      after.fs.winsect = number ∧ Sound after ∧
      after.cache = volume.cache.fetch (copies volume.fs) number := by
  by_cases same : volume.fs.winsect = number
  · have held : volume.cache.held = some number := by
      rw [← same]
      exact if_neg (by omega)
    refine ⟨volume, by rw [moveWindow, if_pos same], rfl, same, sound, ?_⟩
    rw [Cache.fetch, if_pos held]
  · obtain ⟨written, wrote, whole, flushed⟩ := write_back_flushes volume sound
    obtain ⟨position, loaded, filled⟩ := read_window_inside
      ⟨{ volume.fs with wflag := false }, written, volume.beyond⟩ number sound.filled whole inside
    have apart : volume.cache.held ≠ some number := by
      intro held
      by_cases isZero : volume.fs.winsect = 0
      · simp [Volume.cache, isZero] at held
      · simp [Volume.cache, isZero] at held
        exact same held
    generalize afterIs : (⟨{ volume.fs with
      wflag := false, winsect := number, win := sector sectorSize written.bytes number },
      ⟨written.bytes, position⟩, volume.beyond⟩ : Volume) = after
    have fetched : after.cache = volume.cache.fetch (copies volume.fs) number := by
      have settled := flush_settles (copies volume.fs) volume.cache sound.coherent
      rw [← afterIs, Cache.fetch, if_neg apart]
      simp only [Volume.cache, if_neg (Nat.pos_iff_ne_zero.mp named), flushed]
      congr 1
      exact settled.symm
    have system : SameSystem volume.fs after.fs := by rw [← afterIs]; rfl
    refine ⟨after, ?_, system, by rw [← afterIs], ?_, fetched⟩
    · rw [moveWindow, if_neg same, wrote]
      simp only [if_neg (Nat.pos_iff_ne_zero.mp named), loaded, ← afterIs]
    · refine ⟨same_system_placed _ _ system sound.placed, ?_, ?_, ?_, ?_, ?_⟩
      · rw [← afterIs]
        exact whole
      · rw [← afterIs]
        exact filled
      · rw [← afterIs]
        exact inside
      · rw [← afterIs]
        exact fun dirty => absurd dirty (by simp)
      · rw [same_system_copies _ _ system, fetched]
        exact fetch_coherent _ _ (copies_separate volume.fs) sound.coherent number

/-- Moving the window to sector zero flushes the cache. The window goes on showing its sector. -/
theorem move_window_flushes (volume : Volume) (sound : Sound volume) :
    ∃ after, moveWindow volume 0 = (.ok, after) ∧ SameSystem volume.fs after.fs ∧
      after.fs.winsect = volume.fs.winsect ∧ Sound after ∧
      after.cache = volume.cache.flush (copies volume.fs) := by
  by_cases isZero : volume.fs.winsect = 0
  · have clean : volume.fs.wflag = false := by
      by_contra dirty
      have behind := sound.behind (by simpa using dirty)
      have reserved := sound.placed.reserved
      omega
    exact ⟨volume, by rw [moveWindow, if_pos isZero], rfl, rfl, sound,
      (flush_clean _ _ clean).symm⟩
  · obtain ⟨written, wrote, whole, flushed⟩ := write_back_flushes volume sound
    generalize afterIs : (⟨{ volume.fs with wflag := false }, written, volume.beyond⟩ : Volume) =
      after at wrote
    have settled := flush_settles (copies volume.fs) volume.cache sound.coherent
    have cached : after.cache = volume.cache.flush (copies volume.fs) := by
      rw [← afterIs]
      exact Cache.ext flushed (flush_held (copies volume.fs) volume.cache).symm
        (flush_window (copies volume.fs) volume.cache).symm settled.symm
    have system : SameSystem volume.fs after.fs := by rw [← afterIs]; rfl
    refine ⟨after, ?_, system, by rw [← afterIs], ?_, cached⟩
    · rw [moveWindow, if_neg isZero, wrote]
      rfl
    · refine ⟨same_system_placed _ _ system sound.placed, ?_, ?_, ?_, ?_, ?_⟩
      · rw [← afterIs]
        exact whole
      · rw [← afterIs]
        exact sound.filled
      · rw [← afterIs]
        exact sound.within
      · rw [← afterIs]
        exact fun dirty => absurd dirty (by simp)
      · rw [same_system_copies _ _ system, cached]
        exact flush_coherent _ _ (copies_separate volume.fs) sound.coherent

end EffiLib.FatFs
