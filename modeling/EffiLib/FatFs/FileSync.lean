import EffiLib.FatFs.FileSeeks

/-!
# Synchronizing a file

`f_sync` writes the buffer of a changed file back, puts its size and its first cluster into its
directory entry, and synchronizes the volume. Nothing else of the directory changes, and no
byte of any file.
-/

namespace EffiLib.FatFs

open Buffers Sectors BlockCache PlacedBytes ChainTable LittleEndian

/-! ## The directory entry -/

/-- A directory entry in a sector behind the FATs that belongs to no file. Writing it changes no
FAT and no file. -/
structure EntryPlaced (start : FATFS) (lost : List Nat) (sect dir : Nat) : Prop where
  inside : sect < sectorCount
  behind : start.fatbase + start.nFats * start.fsize ≤ sect
  free : ¬ Available start lost sect
  room : dir + 32 ≤ sectorSize

/-- The entry of a file holds its size and its first cluster. A file is opened again from
these. -/
def EntryHolds (win : List u8) (fp : FIL) : Prop :=
  ldDword win (fp.dirPtr + dirFileSize) = fp.fsize ∧ ldClust win fp.dirPtr = fp.sclust

/-- An entry is made of its own bytes. There are 32 of them. -/
theorem entry_holds_congr (win other : List u8) (fp : FIL)
    (same : ∀ place, fp.dirPtr ≤ place → place < fp.dirPtr + 32 →
      byteAt other place = byteAt win place) (holds : EntryHolds win fp) : EntryHolds other fp := by
  obtain ⟨size, first⟩ := holds
  constructor
  · rw [ld_dword_loads] at size ⊢
    rw [← size]
    exact load_word_congr 4 _ _ _ (fun place late early => same place
      (by rw [dirFileSize] at late; omega) (by rw [dirFileSize] at early; omega))
  · rw [ldClust, ld_word_loads, ld_word_loads] at first ⊢
    rw [← first, load_word_congr 2 (fp.dirPtr + dirFstClusHI) other win (fun place late early =>
        same place (by rw [dirFstClusHI] at late; omega) (by rw [dirFstClusHI] at early; omega)),
      load_word_congr 2 (fp.dirPtr + dirFstClusLO) other win (fun place late early =>
        same place (by rw [dirFstClusLO] at late; omega) (by rw [dirFstClusLO] at early; omega))]

/-- The sector of an entry keeps its length. The stores stay inside of it. -/
theorem record_entry_length (win : List u8) (fp : FIL) (tim : Nat) :
    (recordEntry win fp tim).length = win.length := by
  simp only [recordEntry, stClust, st_dword_stores, st_word_stores, store_word_length,
    List.length_set]

/-- What is recorded in the entry is read from it. The bytes of the name are not touched. -/
theorem record_entry_holds (win : List u8) (fp : FIL) (tim : Nat)
    (room : fp.dirPtr + 32 ≤ win.length) (size : fp.fsize < 2 ^ 32) (first : fp.sclust < 2 ^ 32) :
    EntryHolds (recordEntry win fp tim) fp := by
  simp only [EntryHolds, recordEntry, stClust, ldClust, ld_dword_loads, ld_word_loads,
    st_dword_stores,
    st_word_stores, dirFileSize, dirFstClusHI, dirFstClusLO, dirWrtTime, dirAttr]
  have low : fp.sclust % 256 ^ 2 < 2 ^ 16 := Nat.mod_lt _ (by decide)
  constructor
  · rw [load_word_apart _ _ _ _ _ _ (by simp only [store_word_length, List.length_set]; omega)
        (Or.inr (by omega)),
      load_word_apart _ _ _ _ _ _ (by simp only [store_word_length, List.length_set]; omega)
        (Or.inr (by omega)),
      load_word_apart _ _ _ _ _ _ (by simp only [store_word_length, List.length_set]; omega)
        (Or.inr (by omega)),
      load_word_store_word _ _ _ _ (by simp only [List.length_set]; omega)]
    exact Nat.mod_eq_of_lt size
  · rw [load_word_apart _ _ _ _ _ (fp.dirPtr + 20)
        (by simp only [store_word_length, List.length_set]; omega) (Or.inl (by omega)),
      load_word_apart 4 _ _ _ _ (fp.dirPtr + 26)
        (by simp only [store_word_length, List.length_set]; omega) (Or.inr (by omega)),
      load_word_store_word _ _ _ _ (by simp only [store_word_length, List.length_set]; omega),
      load_word_apart 2 (fp.dirPtr + 20) _ _ _ (fp.dirPtr + 26)
        (by simp only [store_word_length, List.length_set]; omega) (Or.inr (by omega)),
      load_word_store_word _ _ _ _ (by simp only [store_word_length, List.length_set]; omega),
      shifted_or _ _ 16 low, Nat.shiftRight_eq_div_pow]
    omega

/-- Recording an entry leaves every byte outside it. So the entries beside it in the sector
stay. -/
theorem record_entry_outside (win : List u8) (fp : FIL) (tim place : Nat)
    (room : fp.dirPtr + 32 ≤ win.length)
    (outside : place < fp.dirPtr ∨ fp.dirPtr + 32 ≤ place) :
    byteAt (recordEntry win fp tim) place = byteAt win place := by
  simp only [recordEntry, stClust, st_dword_stores, st_word_stores, dirFileSize, dirFstClusHI,
    dirFstClusLO, dirWrtTime, dirAttr]
  rw [store_word_outside _ _ _ _ _ (by simp only [store_word_length, List.length_set]; omega)
    (by omega)]
  rw [store_word_outside _ _ _ _ _ (by simp only [store_word_length, List.length_set]; omega)
    (by omega)]
  rw [store_word_outside _ _ _ _ _ (by simp only [store_word_length, List.length_set]; omega)
    (by omega)]
  rw [store_word_outside _ _ _ _ _ (by simp only [List.length_set]; omega) (by omega)]
  rw [byte_at_set _ _ _ _ (by omega), if_neg (by omega)]

/-! ## Changing a sector behind the FATs -/

/-- The volume with another block in its window. It is dirty then. -/
def Volume.modified (volume : Volume) (block : List u8) : Volume :=
  { volume with fs := { volume.fs with win := block, wflag := true } }

/-- A changed window behind the FATs leaves them. Every other sector is seen as before. -/
theorem modified_mounted (volume : Volume) (mounted : Mounted volume) (block : List u8)
    (filled : block.length = sectorSize)
    (behind : volume.fs.fatbase + volume.fs.nFats * volume.fs.fsize ≤ volume.fs.winsect) :
    Mounted (volume.modified block) ∧
      (volume.modified block).cache = volume.cache.modify block ∧
      (∀ number, volume.fs.winsect ≠ number →
        (volume.modified block).cache.view number = volume.cache.view number) ∧
      ∀ clst < volume.fs.nFatent, (volume.modified block).link clst = volume.link clst := by
  have sound := mounted.sound
  have reserved := sound.placed.reserved
  have present := sound.placed.present
  have held : volume.cache.held = some volume.fs.winsect := if_neg (by omega)
  have primary := primary_outside volume.fs volume.fs.winsect (Or.inr behind)
  have coherent := modify_coherent (copies volume.fs) volume.cache sound.coherent _ block held
    primary
  have others : ∀ number, volume.fs.winsect ≠ number →
      (volume.modified block).cache.view number = volume.cache.view number := by
    intro number apart
    exact (modify_view volume.cache volume.fs.winsect number block held).trans
      (if_neg (fun same => apart same.symm))
  have mountedAfter : Mounted (volume.modified block) :=
    ⟨⟨⟨reserved, present, sound.placed.inside⟩, sound.complete, filled, sound.within,
      fun _ => (Nat.le_add_right _ _).trans behind, coherent⟩, mounted.known, mounted.present,
      mounted.roomy, mounted.limited⟩
  refine ⟨mountedAfter, rfl, others, fun clst below => ?_⟩
  rw [link_entry_of]
  refine entry_of_congr volume mounted _ (fun number inside => others _ ?_) clst below
  have one : volume.fs.fsize ≤ volume.fs.nFats * volume.fs.fsize := Nat.le_mul_of_pos_left _ present
  show volume.fs.winsect ≠ volume.fs.fatbase + number
  omega

/-- A sector that is seen has its length. The sector comes from the disk or from the window. -/
theorem view_length (volume : Volume) (sound : Sound volume) (number : Nat)
    (inside : number < sectorCount) : (volume.cache.view number).length = sectorSize := by
  rw [Cache.view]
  split
  · exact sound.filled
  · obtain ⟨_, _, length⟩ := read_window_inside volume number sound.filled sound.complete inside
    exact length

/-! ## The synchronized file -/

section Syncs

variable (start : FATFS) (lost : List Nat) (front back : List (List Nat)) (chain : List Nat)
  (file : OpenFile)

/-- What `f_sync` leaves of a changed file: the same bytes, its entry, and a volume that is on the
disk as it is seen. -/
structure Saved (tim : Nat) (after : OpenFile) : Prop where
  storage : Storage start lost (front ++ chain :: back) after.volume
  tracks : Tracks start lost chain after
  object : after.fp = { file.fp with faWritten := false, faDirty := false }
  seen : ∀ number, Available start lost number →
    after.cache.view number = file.cache.view number
  others : ∀ number, Available start lost number → number ≠ file.fp.dsect →
    after.volume.cache.store number = file.volume.cache.store number
  entry : after.volume.cache.view file.fp.dirSect =
    recordEntry (file.volume.cache.view file.fp.dirSect) file.fp tim
  beside : ∀ number, Beside start lost number → file.fp.dirSect ≠ number →
    start.fatbase ≤ number → after.volume.cache.view number = file.volume.cache.view number
  clean : after.volume.fs.wflag = false

/-- The entry is put into its sector, and the volume is synchronized. The other bytes of the
sector are those that were seen in it. -/
theorem entry_saved (placed : DataPlaced start)
    (reserved : start.fsType = .fat32 → FsiReserved start) (chains : List (List Nat))
    (volume : Volume) (storage : Storage start lost chains volume) (fp : FIL)
    (entryPlaced : EntryPlaced start lost fp.dirSect fp.dirPtr) (tim : Nat) :
    ∃ moved after, moveWindow volume fp.dirSect = (.ok, moved) ∧
      sync (moved.modified (recordEntry moved.fs.win fp tim)) = (.ok, after) ∧
      Storage start lost chains after ∧ SameData start lost volume after ∧
      after.cache.view fp.dirSect = recordEntry (volume.cache.view fp.dirSect) fp tim ∧
      (∀ number, OutsideFat start number → fp.dirSect ≠ number → start.fatbase ≤ number →
        after.cache.view number = volume.cache.view number) ∧
      after.fs.wflag = false := by
  have mounted := storage.consistent.mounted
  have layout := storage.layout
  have base : volume.fs.fatbase = start.fatbase := by rw [layout]
  have positive := mounted.sound.placed.reserved
  have behind := entryPlaced.behind
  have outside : OutsideFat start fp.dirSect := Or.inr behind
  obtain ⟨moved, move, same, shown, loaded, _⟩ := move_window_shows volume mounted.sound
    fp.dirSect (by omega) entryPlaced.inside
  have system := same.system
  have window := loaded (outside_primary volume.fs fp.dirSect
    ((same_layout_outside start volume.fs layout _).mpr outside))
  generalize blockIs : recordEntry moved.fs.win fp tim = block
  have filled : block.length = sectorSize := by
    rw [← blockIs, record_entry_length, same.sound.filled]
  have movedLayout : SameLayout start moved.fs := by rw [SameLayout, system, layout]
  have movedCount : moved.fs.nFatent = volume.fs.nFatent := by rw [system]
  obtain ⟨modifiedMounted, modified, modifiedOthers, modifiedLinks⟩ := modified_mounted moved
    (seen_mounted volume moved mounted same) block filled
    (by rw [shown, movedLayout]; exact behind)
  have modifiedLayout : SameLayout start (moved.modified block).fs := by
    rw [SameLayout, Volume.modified, system, layout]
  obtain ⟨after, ran, synced⟩ := sync_writes (moved.modified block) modifiedMounted
    (same_layout_reserved start _ modifiedLayout reserved)
  have outsideAfter : ∀ number, OutsideFat start number →
      OutsideFat (moved.modified block).fs number :=
    fun number => (same_layout_outside start _ modifiedLayout number).mpr
  have notInfo : ∀ number, start.fatbase ≤ number → (moved.modified block).fs.fsType = .fat32 →
      (moved.modified block).fs.fsiSector ≠ number := by
    intro number late fat32
    rw [modifiedLayout] at fat32 ⊢
    have before := (reserved fat32).before
    show start.fsiSector ≠ number
    omega
  have others : ∀ number, OutsideFat start number → fp.dirSect ≠ number →
      start.fatbase ≤ number → after.cache.view number = volume.cache.view number := by
    intro number outside apart late
    rw [synced.others number (outsideAfter number outside) (notInfo number late),
      modifiedOthers number (by rw [shown]; exact apart)]
    exact same.seen number (outside_primary volume.fs number
      ((same_layout_outside start volume.fs layout number).mpr outside))
  have away : ∀ number, Available start lost number → after.fs.winsect ≠ number := by
    intro number available
    refine synced.apart number ?_ (outsideAfter number ?_) ?_
    · exact available_pos start lost chains placed volume storage number available
    · exact available_outside start placed lost number available
    · show moved.fs.winsect ≠ number
      rw [shown]
      intro same
      exact entryPlaced.free (by rw [same]; exact available)
  refine ⟨moved, after, move, blockIs ▸ ran, ⟨?_, ?_, away⟩, fun number available => ?_, ?_, others,
    synced.clean⟩
  · rw [SameLayout, synced.layout, modifiedLayout]
  · have afterLayout := synced.layout
    refine consistent_alike volume after lost chains storage.consistent synced.mounted ?_ ?_
      (fun clst below => ?_)
    · rw [afterLayout]
      exact movedCount
    · rw [synced.counter, Volume.modified, system]
    · rw [synced.linked clst (by rw [Volume.modified, movedCount]; exact below),
        modifiedLinks clst (by rw [movedCount]; exact below)]
      exact seen_link volume moved mounted same clst below
  · have apart : fp.dirSect ≠ number := fun same => entryPlaced.free (by rw [same]; exact available)
    have late := (Nat.le_add_right _ _).trans (placed.behind.trans available.1)
    rw [← view_store after number (away number available),
      ← view_store volume number (storage.away number available)]
    exact others number (available_outside start placed lost number available) apart late
  · rw [synced.others _ (outsideAfter _ outside) (notInfo _ (by omega)), modified, ← window,
      blockIs, Cache.view, if_pos]
    · rfl
    · show moved.cache.held = _
      rw [← shown]
      exact if_neg (by omega)

/-- `f_sync` saves a changed file. A file without the mark is left alone. -/
theorem f_sync_saves (placed : DataPlaced start)
    (reserved : start.fsType = .fat32 → FsiReserved start)
    (storage : Storage start lost (front ++ chain :: back) file.volume)
    (tracks : Tracks start lost chain file)
    (entryPlaced : EntryPlaced start lost file.fp.dirSect file.fp.dirPtr)
    (changed : file.fp.faWritten = true) (tim : Nat) :
    ∃ after, fSync file tim = (.ok, after) ∧ Saved start lost front back chain file tim after := by
  have backed := tracks.backed
  obtain ⟨pDisk0, wrote, flushedStorage, flushed, outside⟩ :=
    write_back_buf_flushes start lost _ chain file placed storage backed
  obtain ⟨moved, after, move, ran, newStorage, data, entry, others, clean⟩ := entry_saved start lost
    placed reserved _ _ flushedStorage { file.fp with faDirty := false } entryPlaced tim
  have coherent := flush_coherent noCopies file.cache separate_none backed.coherent
  rw [← flushed] at coherent
  have flushedBacked : Backed start lost chain
      ⟨{ file.volume with pDisk0 }, { file.fp with faDirty := false }⟩ :=
    ⟨backed.valid, backed.going, backed.started, backed.sized, backed.filled, coherent,
    backed.settled⟩
  have newBacked : Backed start lost chain
      ⟨after, { file.fp with faWritten := false, faDirty := false }⟩ :=
    ⟨backed.valid, backed.going, backed.started, backed.sized, backed.filled,
      data_coherent start lost chain _ after data flushedBacked, backed.settled⟩
  have seen : ∀ number, Available start lost number →
      (OpenFile.cache ⟨after, { file.fp with faWritten := false, faDirty := false }⟩).view number =
        file.cache.view number := by
    intro number available
    have same := data_view start lost
      ⟨{ file.volume with pDisk0 }, { file.fp with faDirty := false }⟩ after data number available
    have settled := flush_view noCopies file.cache backed.coherent number (primary_none number)
    rw [flushed, settled] at same
    exact same
  refine ⟨⟨after, { file.fp with faWritten := false, faDirty := false }⟩, ?_, newStorage,
    ⟨newBacked, tracks.within, tracks.current, tracks.held⟩, rfl, seen,
    fun number available apart => ?_, ?_, fun number beside apart late => ?_, clean⟩
  · rw [fSync, validate_ok start lost front back chain file storage backed]
    dsimp only
    rw [if_pos changed, wrote]
    dsimp only
    rw [move]
    dsimp only
    rw [← Volume.modified, ran]
  · rw [data number available]
    have away : file.cache.held ≠ Option.some number :=
      fun held => apart (held_dsect file number held).1.symm
    exact (congrArg (fun cache => cache.store number) flushed).trans
      (flush_apart file.cache number away)
  · rw [entry, outside _ entryPlaced.free]
    rfl
  · rw [others number beside.1 apart late, outside number beside.2]

end Syncs

end EffiLib.FatFs
