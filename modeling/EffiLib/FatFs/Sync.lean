import EffiLib.FatFs.Clusters

/-!
# The FAT on the disk

`sync` writes a dirty window back and, on a FAT32 volume, the counters to the FSInfo sector.
Between two calls of it the FAT is an array of entries, read with `get_fat` and changed with
`put_fat`, wherever the window is moved; behind one every copy of the FAT on the disk holds
that array.
-/

namespace EffiLib.FatFs

open Sectors BlockCache LittleEndian

/-- `FSI_StrucSig`, the offset of the second signature of the FSInfo sector. The signature is four
bytes long. -/
def fsiStrucSig : Nat := 484

/-- `FSI_Free_Count`. It is the offset of the number of free clusters. -/
def fsiFreeCount : Nat := 488

/-- `FSI_Nxt_Free`. It is the offset of the cluster that was taken last. -/
def fsiNxtFree : Nat := 492

/-- `BS_55AA`, the offset of the signature of a boot or FSInfo sector. The signature is two bytes
long. -/
def bs55AA : Nat := 510

/-- The FSInfo sector. All that is not set is zero. -/
def fsInfo (freeClust lastClust : Nat) : List u8 :=
  let win := List.replicate sectorSize 0
  let win := stWord win bs55AA 0xAA55
  let win := stDword win 0 0x41615252
  let win := stDword win fsiStrucSig 0x61417272
  let win := stDword win fsiFreeCount freeClust
  stDword win fsiNxtFree lastClust

/-- The part of `sync` that writes the FSInfo sector, whatever the disk answers. The window is
used for it and shows no sector behind it. -/
def writeFsInfo (volume : Volume) : Volume :=
  let filled := { volume with fs := { volume.fs with
    winsect := 0, win := fsInfo volume.fs.freeClust volume.fs.lastClust } }
  let written := (writeWindow filled filled.fs.fsiSector).2
  { written with fs := { written.fs with fsiFlag := false } }

/-- `sync`. The disk always answers `CTRL_SYNC` with success. A dirty window is written back in
any case. -/
def sync (volume : Volume) : FResult × Volume :=
  match moveWindow volume 0 with
  | (.ok, moved) =>
    if moved.fs.fsType = .fat32 ∧ moved.fs.fsiFlag then (.ok, writeFsInfo moved) else (.ok, moved)
  | (res, failed) => (res, failed)

/-- An entry out of the sectors of a FAT. It is `Volume.link` for sectors that are given. -/
def entryOf (fsType : FsType) (sectors : Nat → List u8) (clst : Nat) : Nat :=
  match fsType with
  | .fat12 => entry12 (fun offset =>
      (byteAt (sectors (offset / sectorSize)) (offset % sectorSize)).toNat) clst
  | .fat16 => loadWord 2 (clst * 2 % sectorSize) (sectors (clst / 256))
  | .fat32 => loadWord 4 (clst * 4 % sectorSize) (sectors (clst / 128)) % 2 ^ 28
  | .unmounted => 0

/-- The sectors of one copy of the FAT on the disk. Copy zero is the first FAT. -/
def Volume.fatCopy (volume : Volume) (copy number : Nat) : List u8 :=
  sector sectorSize volume.pDisk0.bytes (volume.fs.fatbase + copy * volume.fs.fsize + number)

/-- The links are the entries of the FAT that is seen. The other copies are not read. -/
theorem link_entry_of (volume : Volume) (clst : Nat) :
    volume.link clst = entryOf volume.fs.fsType volume.fatSector clst := by
  rw [Volume.link, entryOf.eq_def]
  cases volume.fs.fsType <;> rfl

/-- Behind a flush each copy of the FAT holds what is seen of the first. The first itself is among
them. -/
theorem flushed_copies (volume after : Volume) (sound : Sound volume)
    (system : SameSystem volume.fs after.fs)
    (cached : after.cache = volume.cache.flush (copies volume.fs)) (copy number : Nat)
    (which : copy < volume.fs.nFats) (inside : number < volume.fs.fsize) :
    after.fatCopy copy number = volume.fatSector number := by
  have base : after.fs.fatbase = volume.fs.fatbase := by rw [system]
  have size : after.fs.fsize = volume.fs.fsize := by rw [system]
  have primary := fat_primary volume.fs number inside
  have flushed := flush_coherent _ _ (copies_separate volume.fs) sound.coherent
  have settled := flush_settles _ _ sound.coherent
  have stored := flush_store _ _ sound.coherent _ primary
  rw [← cached] at flushed settled stored
  rw [Volume.fatSector, ← stored, Volume.fatCopy, base, size]
  rcases Nat.eq_zero_or_pos copy with rfl | further
  · rw [Nat.zero_mul, Nat.add_zero]
    rfl
  · refine flushed.mirrored (volume.fs.fatbase + number) (fun _ => settled) _ ?_
    rw [mem_copies]
    exact ⟨by omega, by omega, copy, further, which, by omega⟩

/-- An entry is made of the sectors of its FAT. So FATs with the same sectors have the same
links. -/
theorem entry_of_congr (volume : Volume) (mounted : Mounted volume) (sectors : Nat → List u8)
    (same : ∀ number < volume.fs.fsize, sectors number = volume.fatSector number) (clst : Nat)
    (below : clst < volume.fs.nFatent) :
    entryOf volume.fs.fsType sectors clst = volume.link clst := by
  rw [link_entry_of]
  cases kind : volume.fs.fsType with
  | unmounted => rfl
  | fat12 =>
    obtain ⟨first, second, _⟩ := room_fat12 volume mounted clst below kind
    simp only [entryOf, entry12, same _ first, same _ second]
  | fat16 => simp only [entryOf, same _ (room_fat16 volume mounted clst below kind)]
  | fat32 => simp only [entryOf, same _ (room_fat32 volume mounted clst below kind)]

/-! ## Writing the FSInfo sector -/

/-- The FSInfo sector is not the FAT's. It is one of the sectors in front of the first FAT. -/
structure FsiReserved (fs : FATFS) : Prop where
  nonzero : 0 < fs.fsiSector
  before : fs.fsiSector < fs.fatbase

/-- Volumes of one layout have their FSInfo sector in the same place. So it is reserved on both or
on none. -/
theorem same_layout_reserved (fs after : FATFS) (layout : SameLayout fs after)
    (reserved : fs.fsType = .fat32 → FsiReserved fs) :
    after.fsType = .fat32 → FsiReserved after := by
  intro fat32
  rw [layout] at fat32 ⊢
  exact ⟨(reserved fat32).nonzero, (reserved fat32).before⟩

/-- Putting a sector outside the FATs on the disk directly leaves a coherent cache. Such a sector
has no copies that it could differ from. -/
theorem through_coherent {β : Type} (fs : FATFS) (cache : Cache β) (number : Nat) (block : β)
    (coherent : Coherent (copies fs) cache) (clean : cache.dirty = false)
    (before : number < fs.fatbase) : Coherent (copies fs) (cache.through number block) := by
  refine ⟨fun other held => absurd held (by simp [Cache.through]),
    fun dirty => absurd dirty (by simp [Cache.through, clean]), fun other _ copy isCopy => ?_⟩
  have behind := copy_behind fs other copy isCopy
  have first := (mem_copies fs other copy).mp isCopy
  have copyApart : copy ∉ [number] := by
    rw [List.mem_singleton]
    omega
  have otherApart : other ∉ [number] := by
    rw [List.mem_singleton]
    omega
  simp only [Cache.through, spread, if_neg copyApart, if_neg otherApart]
  exact coherent.mirrored other (fun _ => clean) copy isCopy

/-- The FSInfo sector is a sector. Its fields are stored at fixed places in it. -/
theorem fs_info_length (freeClust lastClust : Nat) :
    (fsInfo freeClust lastClust).length = sectorSize := by
  simp only [fsInfo, st_dword_stores, st_word_stores, store_word_length, List.length_replicate]

/-- The window flushed, nothing else has changed, and the copies on the disk are right. Sector
zero is never held, so the window is written back for it. -/
theorem flushed_seen (volume : Volume) (mounted : Mounted volume) :
    ∃ moved, moveWindow volume 0 = (.ok, moved) ∧ SeenSame volume moved ∧ Apart volume moved ∧
      moved.fs.wflag = false ∧
      ∀ copy < volume.fs.nFats, ∀ number < volume.fs.fsize,
        moved.fatCopy copy number = volume.fatSector number := by
  obtain ⟨moved, move, system, place, sound, cached⟩ := move_window_flushes volume mounted.sound
  refine ⟨moved, move, ⟨sound, system, fun number primary => ?_⟩,
    fun number _ away => place ▸ away, ?_, ?_⟩
  · rw [cached]
    exact flush_view _ _ mounted.sound.coherent number primary
  · have settled := flush_settles (copies volume.fs) volume.cache mounted.sound.coherent
    rw [← cached] at settled
    exact settled
  · exact fun copy which number inside =>
      flushed_copies volume moved mounted.sound system cached copy number which inside

/-- Writing the FSInfo sector puts it beside the cache. The FAT and all other sectors are seen as
before. -/
theorem fs_info_written (volume : Volume) (mounted : Mounted volume)
    (clean : volume.fs.wflag = false) (reserved : FsiReserved volume.fs) :
    Mounted (writeFsInfo volume) ∧ SameLayout volume.fs (writeFsInfo volume).fs ∧
      (writeFsInfo volume).cache = volume.cache.through volume.fs.fsiSector
        (fsInfo volume.fs.freeClust volume.fs.lastClust) := by
  have sectors : sectorCount = 10240 := rfl
  have sound := mounted.sound
  obtain ⟨_, room⟩ := placed_sums volume.fs sound.placed
  have before := reserved.before
  obtain ⟨pDisk0, wrote, complete, store⟩ := write_window_inside
    { volume with fs := { volume.fs with
      winsect := 0, win := fsInfo volume.fs.freeClust volume.fs.lastClust } } volume.fs.fsiSector
    (fs_info_length _ _) sound.complete (by omega)
  have after : writeFsInfo volume = ⟨{ volume.fs with
      winsect := 0, win := fsInfo volume.fs.freeClust volume.fs.lastClust, fsiFlag := false },
      pDisk0, volume.beyond⟩ := by
    rw [writeFsInfo]
    dsimp only
    rw [wrote]
  have cached : (writeFsInfo volume).cache = volume.cache.through volume.fs.fsiSector
      (fsInfo volume.fs.freeClust volume.fs.lastClust) := by
    rw [after]
    exact Cache.ext store rfl rfl rfl
  have coherent := through_coherent volume.fs volume.cache volume.fs.fsiSector
    (fsInfo volume.fs.freeClust volume.fs.lastClust) sound.coherent clean before
  rw [← cached] at coherent
  refine ⟨?_, by rw [SameLayout, after], cached⟩
  rw [after] at coherent ⊢
  exact ⟨⟨⟨sound.placed.reserved, sound.placed.present, sound.placed.inside⟩, complete,
    fs_info_length _ _, by rw [sectors]; exact Nat.zero_lt_succ _,
    fun dirty => absurd dirty (by simp [clean]), coherent⟩, mounted.known, mounted.present,
    mounted.roomy, mounted.limited⟩

/-- What `sync` leaves: the volume as it was seen, and that on the disk. The counters are those
that were written. -/
structure Synced (volume after : Volume) : Prop where
  mounted : Mounted after
  layout : SameLayout volume.fs after.fs
  counter : after.fs.freeClust = volume.fs.freeClust
  apart : ∀ number, 0 < number → OutsideFat volume.fs number → volume.fs.winsect ≠ number →
    after.fs.winsect ≠ number
  linked : ∀ clst < volume.fs.nFatent, after.link clst = volume.link clst
  others : ∀ number, OutsideFat volume.fs number →
    (volume.fs.fsType = .fat32 → volume.fs.fsiSector ≠ number) →
    after.cache.view number = volume.cache.view number
  clean : after.fs.wflag = false
  copied : ∀ copy < volume.fs.nFats, ∀ number < volume.fs.fsize,
    after.fatCopy copy number = volume.fatSector number

/-- A clean volume is seen as it is on the disk. The window is the sector on the disk then. -/
theorem clean_settled (volume : Volume) (sound : Sound volume) (clean : volume.fs.wflag = false)
    (number : Nat) : volume.cache.view number = volume.cache.store number := by
  rw [Cache.view]
  split
  · rename_i held
    exact sound.coherent.clean number held clean
  · rfl

/-- `sync` leaves the FAT as it was seen, and that on every copy on the disk. The entries are
those that were put last, wherever the window has been. -/
theorem sync_writes (volume : Volume) (mounted : Mounted volume)
    (reserved : volume.fs.fsType = .fat32 → FsiReserved volume.fs) :
    ∃ after, sync volume = (.ok, after) ∧ Synced volume after := by
  obtain ⟨moved, move, same, apart, clean, copied⟩ := flushed_seen volume mounted
  have relinked := seen_links volume moved mounted same apart
  have kept := relinked_kept _ _ _ relinked
  have system := same.system
  have counter : moved.fs.freeClust = volume.fs.freeClust := by rw [system]
  have settled := clean_settled moved same.sound clean
  by_cases writes : moved.fs.fsType = .fat32 ∧ moved.fs.fsiFlag
  · have base : moved.fs.fatbase = volume.fs.fatbase := by rw [system]
    have size : moved.fs.fsize = volume.fs.fsize := by rw [system]
    have kind : moved.fs.fsType = volume.fs.fsType := by rw [system]
    have fsi : moved.fs.fsiSector = volume.fs.fsiSector := by rw [system]
    have isReserved := reserved (kind ▸ writes.1)
    have before := isReserved.before
    obtain ⟨mountedAfter, layout, cached⟩ := fs_info_written moved relinked.mounted clean
      ⟨by rw [fsi]; exact isReserved.nonzero, by rw [fsi, base]; exact before⟩
    have wholeLayout : SameLayout volume.fs (writeFsInfo moved).fs := by
      rw [SameLayout, layout, system]
    have place : (writeFsInfo moved).fs.fatbase = volume.fs.fatbase := by rw [wholeLayout]
    have length : (writeFsInfo moved).fs.fsize = volume.fs.fsize := by rw [wholeLayout]
    have afterKind : (writeFsInfo moved).fs.fsType = volume.fs.fsType := by rw [wholeLayout]
    -- Every sector but the FSInfo sector stays, and those of the FATs are behind it.
    have stays : ∀ number, volume.fs.fsiSector ≠ number →
        (writeFsInfo moved).cache.store number = moved.cache.store number ∧
          (writeFsInfo moved).cache.view number = moved.cache.store number := by
      intro number other
      have apart : number ∉ [moved.fs.fsiSector] := by
        rw [List.mem_singleton, fsi]
        exact fun same => other same.symm
      rw [cached]
      exact ⟨if_neg apart, if_neg apart⟩
    refine ⟨writeFsInfo moved, ?_, mountedAfter, wholeLayout, counter,
      fun number nonzero _ _ shown => ?_, fun clst below => ?_, fun number outside other => ?_,
        clean,
      fun copy which number inside => ?_⟩
    · rw [sync, move]
      dsimp only
      rw [if_pos writes]
    · have isZero : (writeFsInfo moved).fs.winsect = 0 := rfl
      omega
    · rw [link_entry_of, afterKind]
      refine entry_of_congr volume mounted _ (fun number inside => ?_) clst below
      rw [Volume.fatSector, place, (stays _ (by omega)).2, ← settled]
      exact same.seen _ (fat_primary volume.fs number inside)
    · rw [(stays number (other (kind ▸ writes.1))).2, ← settled]
      exact same.seen number (outside_primary volume.fs number outside)
    · rw [← copied copy which number inside, Volume.fatCopy, Volume.fatCopy, place, length, base,
        size]
      exact (stays _ (by omega)).1
  · refine ⟨moved, ?_, relinked.mounted, kept.layout, counter,
      fun number _ outside away => apart number outside away, relinked.linked,
      fun number outside _ => relinked.others number outside, clean, copied⟩
    rw [sync, move]
    dsimp only
    rw [if_neg writes]

/-! ## The FAT as an array -/

/-- An access of the FAT, or of another sector in between. Looking at a sector moves the
window. -/
inductive FatAccess where
  | get (clst : Nat)
  | put (clst val : Nat)
  | look (sector : Nat)
  | sync

/-- The answer: the entry that `get_fat` reads, or the code of a call that reads none. Such a code
tells whether the call succeeded. -/
inductive FatAnswer where
  | entry (val : Nat)
  | code (res : FResult)
deriving DecidableEq

/-- An access served by the volume. It translates accesses to calls. -/
def Volume.access (volume : Volume) : FatAccess → FatAnswer × Volume
  | .get clst =>
    let (val, after) := getFat volume clst
    (.entry val, after)
  | .put clst val =>
    let (res, after) := putFat volume clst val
    (.code res, after)
  | .look sector =>
    let (res, after) := moveWindow volume sector
    (.code res, after)
  | .sync =>
    let (res, after) := EffiLib.FatFs.sync volume
    (.code res, after)

/-- An access of an array of entries, where nothing fails. A value is cut to the size of an
entry. -/
def arrayAccess (range : Nat) (links : Nat → Nat) : FatAccess → FatAnswer × (Nat → Nat)
  | .get clst => (.entry (links clst), links)
  | .put clst val => (.code .ok, Function.update links clst (val % range))
  | .look _ => (.code .ok, links)
  | .sync => (.code .ok, links)

/-- The answers to a sequence of accesses, and what holds the entries behind it. Volume and array
are run by the same function. -/
def accessAll {σ : Type} (access : σ → FatAccess → FatAnswer × σ) :
    σ → List FatAccess → List FatAnswer × σ
  | state, [] => ([], state)
  | state, request :: rest =>
    let served := access state request
    let others := accessAll access served.2 rest
    (served.1 :: others.1, others.2)

/-- Accesses of clusters that there are, and of sectors of the disk. `get_fat` and `put_fat`
refuse all other clusters. -/
def FatAccess.Inside (fs : FATFS) : FatAccess → Prop
  | .get clst => InRange fs clst
  | .put clst _ => InRange fs clst
  | .look sector => 0 < sector ∧ sector < sectorCount
  | .sync => True

/-- A volume of the layout of another, with the given links. It is the invariant of a run of
accesses. -/
structure Represents (start : FATFS) (links : Nat → Nat) (volume : Volume) : Prop where
  mounted : Mounted volume
  layout : SameLayout start volume.fs
  linked : ∀ clst < start.nFatent, volume.link clst = links clst

/-- A step of the window. The FAT that is represented may be changed by it. -/
theorem represents_step (start : FATFS) (links changed : Nat → Nat) (volume after : Volume)
    (represents : Represents start links volume) (mounted : Mounted after)
    (system : SameSystem volume.fs after.fs)
    (linked : ∀ clst < volume.fs.nFatent, after.link clst = changed clst) :
    Represents start changed after := by
  have count : volume.fs.nFatent = start.nFatent := by rw [represents.layout]
  refine ⟨mounted, ?_, fun clst below => linked clst (count ▸ below)⟩
  rw [SameLayout, system, represents.layout]

/-- An access answers as the array does. Proof: by the kind of the access, each with its own
lemma. -/
theorem access_represents (start : FATFS) (links : Nat → Nat) (volume : Volume)
    (request : FatAccess) (reserved : start.fsType = .fat32 → FsiReserved start)
    (represents : Represents start links volume) (inside : request.Inside start) :
    (volume.access request).1 = (arrayAccess (entryRange start.fsType) links request).1 ∧
      Represents start (arrayAccess (entryRange start.fsType) links request).2
        (volume.access request).2 := by
  have mounted := represents.mounted
  have count : volume.fs.nFatent = start.nFatent := by rw [represents.layout]
  have kind : volume.fs.fsType = start.fsType := by rw [represents.layout]
  have within : ∀ clst, InRange start clst → InRange volume.fs clst := by
    intro clst inRange
    rw [InRange, count]
    exact inRange
  cases request with
  | get clst =>
    obtain ⟨after, read, same⟩ := get_fat_reads volume mounted clst (within clst inside)
    rw [Volume.access, read]
    have again := represents_step start links _ volume after represents same.mounted same.system
      same.linked
    exact ⟨congrArg FatAnswer.entry (represents.linked clst inside.2), again.mounted, again.layout,
      fun other below => (again.linked other below).trans (represents.linked other below)⟩
  | put clst val =>
    obtain ⟨after, put, relinked⟩ := put_fat_links volume mounted clst val (within clst inside)
    rw [Volume.access, put]
    have again := represents_step start links _ volume after represents relinked.mounted
      relinked.system relinked.linked
    refine ⟨rfl, again.mounted, again.layout, fun other below => ?_⟩
    rw [again.linked other below, kind, Function.update_apply, represents.linked other below]
    exact (Function.update_apply ..).symm
  | look number =>
    obtain ⟨after, moved, same, _⟩ :=
      move_window_shows volume mounted.sound number inside.1 inside.2
    rw [Volume.access, moved]
    have again := represents_step start links _ volume after represents
      (seen_mounted volume after mounted same) same.system (seen_link volume after mounted same)
    exact ⟨rfl, again.mounted, again.layout, fun other below =>
      (again.linked other below).trans (represents.linked other below)⟩
  | sync =>
    have isReserved := same_layout_reserved start volume.fs represents.layout reserved
    obtain ⟨after, ran, synced⟩ := sync_writes volume mounted isReserved
    rw [Volume.access, ran]
    refine ⟨rfl, synced.mounted, ?_, fun other below => ?_⟩
    · rw [SameLayout, synced.layout, represents.layout]
    · exact (synced.linked other (by rw [count]; exact below)).trans
        (represents.linked other below)

/-- Any run of accesses represents the links that it leaves. Proof: by induction on the
accesses. -/
theorem accesses_represent (start : FATFS) (links : Nat → Nat) (volume : Volume)
    (requests : List FatAccess) (reserved : start.fsType = .fat32 → FsiReserved start)
    (represents : Represents start links volume)
    (inside : ∀ request ∈ requests, request.Inside start) :
    (accessAll Volume.access volume requests).1 =
        (accessAll (arrayAccess (entryRange start.fsType)) links requests).1 ∧
      Represents start (accessAll (arrayAccess (entryRange start.fsType)) links requests).2
        (accessAll Volume.access volume requests).2 := by
  induction requests generalizing volume links with
  | nil => exact ⟨rfl, represents⟩
  | cons request rest inductionHypothesis =>
    obtain ⟨answer, next⟩ := access_represents start links volume request reserved represents
      (inside request List.mem_cons_self)
    obtain ⟨answers, final⟩ := inductionHypothesis _ _ next
      (fun other member => inside other (List.mem_cons_of_mem _ member))
    exact ⟨congrArg₂ List.cons answer answers, final⟩

/-- Through any run of accesses the FAT of every type is an array of entries, no call fails, and
behind a `sync` each copy of the FAT on the disk decodes to it. On a FAT32 volume the FSInfo sector
is one of those in front of the FAT.

Proof: each access answers as the array does and keeps the volume mounted, with the same layout and
the links of the array; the run follows by induction. -/
theorem fat_stores_entries (volume : Volume) (mounted : Mounted volume)
    (reserved : volume.fs.fsType = .fat32 → FsiReserved volume.fs) (requests : List FatAccess)
    (inside : ∀ request ∈ requests, request.Inside volume.fs) :
    let served := accessAll Volume.access volume requests
    let array := accessAll (arrayAccess (entryRange volume.fs.fsType)) volume.link requests
    served.1 = array.1 ∧ (sync served.2).1 = .ok ∧
      ∀ copy < volume.fs.nFats, ∀ clst < volume.fs.nFatent,
        entryOf volume.fs.fsType ((sync served.2).2.fatCopy copy) clst = array.2 clst := by
  intro served array
  obtain ⟨answers, represents⟩ := accesses_represent volume.fs volume.link volume requests reserved
    ⟨mounted, rfl, fun _ _ => rfl⟩ inside
  have layout := represents.layout
  have count : served.2.fs.nFatent = volume.fs.nFatent := by rw [layout]
  have kind : served.2.fs.fsType = volume.fs.fsType := by rw [layout]
  have fats : served.2.fs.nFats = volume.fs.nFats := by rw [layout]
  have isReserved := same_layout_reserved volume.fs served.2.fs layout reserved
  obtain ⟨after, ran, synced⟩ := sync_writes served.2 represents.mounted isReserved
  refine ⟨answers, congrArg Prod.fst ran, fun copy which clst below => ?_⟩
  rw [ran, ← represents.linked clst below, ← kind]
  exact entry_of_congr served.2 represents.mounted _
    (fun number early => synced.copied copy (by rw [fats]; exact which) number early) clst
    (by rw [count]; exact below)

/-- Two clusters of a small volume are linked. The window moves away and the volume is
synchronized before the second link is read. -/
theorem small_fat_stores :
    let requests : List FatAccess :=
      [.put 2 3, .put 3 0xFFF, .look 5, .get 2, .sync, .get 3]
    let volume := smallVolume (List.replicate sectorSize 0)
    let served := accessAll Volume.access volume requests
    let array := accessAll (arrayAccess (2 ^ 12)) volume.link requests
    served.1 = [.code .ok, .code .ok, .code .ok, .entry 3, .code .ok, .entry 0xFFF] ∧
      (sync served.2).1 = .ok ∧
      ∀ copy < 2, ∀ clst < 6, entryOf .fat12 ((sync served.2).2.fatCopy copy) clst =
        array.2 clst := by
  have stores := fat_stores_entries (smallVolume (List.replicate sectorSize 0))
    (small_volume_mounted _ List.length_replicate) (fun fat32 => absurd fat32 (by decide))
    [.put 2 3, .put 3 0xFFF, .look 5, .get 2, .sync, .get 3] (by
      have second : InRange (smallVolume (List.replicate sectorSize 0)).fs 2 :=
        ⟨Nat.le_refl 2, show 2 < 6 by decide⟩
      have third : InRange (smallVolume (List.replicate sectorSize 0)).fs 3 :=
        ⟨by decide, show 3 < 6 by decide⟩
      simp only [List.forall_mem_cons, FatAccess.Inside]
      exact ⟨second, third, ⟨by decide, by decide⟩, second, trivial, third,
        fun _ member => absurd member List.not_mem_nil⟩)
  exact stores

end EffiLib.FatFs
