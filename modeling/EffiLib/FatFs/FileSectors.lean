import EffiLib.FatFs.Files

/-!
# The sectors of a file

The data area holds the clusters in order behind the FATs. The sectors of the clusters of a
chain are the blocks of a file, with the buffer as a cache of one block over them. Steps on the
FAT, and steps of the buffer, leave the bytes of the file as they are seen.
-/

namespace EffiLib.FatFs

open Buffers Sectors BlockCache PlacedBytes ChainTable

/-- A cluster is a power of two of sectors, and the data area is behind the FATs and inside the
disk. -/
structure DataPlaced (fs : FATFS) : Prop where
  power : ∃ exponent ≤ 7, fs.csize = 2 ^ exponent
  behind : fs.fatbase + fs.nFats * fs.fsize ≤ fs.database
  inside : fs.database + (fs.nFatent - 2) * fs.csize ≤ sectorCount

/-- The cluster of a sector of the data area. The clusters lie in order behind the FATs. -/
def clusterOf (fs : FATFS) (number : Nat) : Nat := (number - fs.database) / fs.csize + 2

/-- A sector of some clusters. The clusters are those of a file. -/
def Owns (fs : FATFS) (cells : List Nat) (number : Nat) : Prop :=
  fs.database ≤ number ∧ clusterOf fs number ∈ cells

/-- A sector of a cluster that may come to belong to a file. Such a sector may be changed on the
disk without a look at the window. -/
def Available (fs : FATFS) (lost : List Nat) (number : Nat) : Prop :=
  fs.database ≤ number ∧ InRange fs (clusterOf fs number) ∧ clusterOf fs number ∉ lost

/-- The sector of a block of a file. The blocks are counted from the start of the file. -/
def dataSector (fs : FATFS) (chain : List Nat) (index : Nat) : Nat :=
  fs.database + (chain.getD (index / fs.csize) 0 - 2) * fs.csize + index % fs.csize

/-- A consistent volume of a known layout, whose window is away from the data of files. It is the
invariant of the volume under all open files. -/
structure Storage (start : FATFS) (lost : List Nat) (chains : List (List Nat))
    (volume : Volume) : Prop where
  layout : SameLayout start volume.fs
  consistent : Consistent volume lost chains
  away : ∀ number, Available start lost number → volume.fs.winsect ≠ number

/-- A sector that belongs to no FAT and to no file. Directories and the FSInfo sector are such
sectors. -/
def Beside (start : FATFS) (lost : List Nat) (number : Nat) : Prop :=
  OutsideFat start number ∧ ¬ Available start lost number

/-- The data of files is on the disk as before. What is in a buffer is not on the disk. -/
def SameData (start : FATFS) (lost : List Nat) (volume after : Volume) : Prop :=
  ∀ number, Available start lost number →
    after.cache.store number = volume.cache.store number

/-- The data is on the disk as before, and what is beside it and the FATs is seen as before. This
is what a step on the FAT leaves to files and directories. -/
structure Calm (start : FATFS) (lost : List Nat) (volume after : Volume) : Prop where
  data : SameData start lost volume after
  others : ∀ number, Beside start lost number →
    after.cache.view number = volume.cache.view number

/-- Nothing has changed. No step has been made. -/
theorem calm_refl (start : FATFS) (lost : List Nat) (volume : Volume) :
    Calm start lost volume volume :=
  ⟨fun _ _ => rfl, fun _ _ => rfl⟩

/-- Calm steps behind each other are one. The sectors beside the data are then as they were at
first. -/
theorem calm_trans (start : FATFS) (lost : List Nat) (volume middle after : Volume)
    (first : Calm start lost volume middle) (second : Calm start lost middle after) :
    Calm start lost volume after :=
  ⟨fun number available => (second.data number available).trans (first.data number available),
    fun number beside => (second.others number beside).trans (first.others number beside)⟩

/-- The sectors of the disk with the one in the buffer. Sector zero stands for none. -/
def OpenFile.cache (file : OpenFile) : Cache (List u8) where
  store := file.volume.cache.store
  held := if file.fp.dsect = 0 then none else some file.fp.dsect
  window := file.fp.buf
  dirty := file.fp.faDirty

/-- No block of a file has a copy. Only sectors of the FAT have some. -/
def noCopies : Nat → List Nat := fun _ => []

/-- A byte of a file, as it is seen through its buffer. Its index may be behind the end of the
file. -/
def OpenFile.byte (start : FATFS) (chain : List Nat) (file : OpenFile) : Nat → u8 :=
  element sectorSize (fun index => file.cache.view (dataSector start chain index))

/-- A file on a chain: its start and its size fit, and its buffer is coherent. Nothing is said
about its pointer. -/
structure Backed (start : FATFS) (lost : List Nat) (chain : List Nat) (file : OpenFile) :
    Prop where
  valid : start.id = file.fp.id
  going : file.fp.faError = false
  started : file.fp.sclust = chain.headD 0
  sized : file.fp.fsize ≤ clusterSize start * chain.length
  filled : file.fp.buf.length = sectorSize
  coherent : Coherent noCopies file.cache
  settled : file.fp.dsect = 0 ∨ Available start lost file.fp.dsect

/-- The cluster and the buffer belong to the pointer. It is the invariant between two calls on the
file. -/
structure Tracks (start : FATFS) (lost : List Nat) (chain : List Nat) (file : OpenFile) :
    Prop where
  backed : Backed start lost chain file
  within : file.fp.fptr ≤ clusterSize start * chain.length
  current : 0 < file.fp.fptr →
    chain[(file.fp.fptr - 1) / clusterSize start]? = some file.fp.clust
  held : file.fp.fptr % sectorSize ≠ 0 →
    file.fp.dsect = dataSector start chain (file.fp.fptr / sectorSize)

/-! ## The data area -/

/-- The cluster of a block. A block is a sector of the file, counted from its start. -/
theorem chain_block (start : FATFS) (chain : List Nat) (index : Nat)
    (inside : index < start.csize * chain.length) :
    index / start.csize < chain.length ∧
      chain.getD (index / start.csize) 0 = chain[index / start.csize]! ∧
      chain.getD (index / start.csize) 0 ∈ chain := by
  have there : index / start.csize < chain.length := Nat.div_lt_of_lt_mul inside
  have element : chain.getD (index / start.csize) 0 = chain[index / start.csize] := by
    rw [List.getD_eq_getElem?_getD, List.getElem?_eq_getElem there, Option.getD_some]
  refine ⟨there, ?_, ?_⟩
  · rw [element, getElem!_pos chain _ there]
  · rw [element]
    exact List.getElem_mem there

/-- More clusters do not move the blocks. New clusters are put behind those that are there. -/
theorem data_sector_append (start : FATFS) (chain more : List Nat) (index : Nat)
    (inside : index < start.csize * chain.length) :
    dataSector start (chain ++ more) index = dataSector start chain index := by
  have there : index / start.csize < chain.length := Nat.div_lt_of_lt_mul inside
  rw [dataSector, dataSector, List.getD_append _ _ _ _ there]

/-- The cluster of a byte is that of its block. So the two ways of counting agree. -/
theorem byte_cluster (start : FATFS) (index : Nat) :
    index / sectorSize / start.csize = index / clusterSize start := by
  rw [Nat.div_div_eq_div_mul, clusterSize, Nat.mul_comm]

/-- A byte of the clusters is in a block of them. Blocks have the size of a sector. -/
theorem byte_block (start : FATFS) (chain : List Nat) (index : Nat)
    (inside : index < clusterSize start * chain.length) :
    index / sectorSize < start.csize * chain.length := by
  refine Nat.div_lt_of_lt_mul ?_
  rw [← Nat.mul_assoc, Nat.mul_comm sectorSize]
  exact inside

section Area

variable (start : FATFS) (placed : DataPlaced start)

include placed

/-- There is a sector in a cluster, and a cluster is no greater than the disk. The number of
sectors is a power of two that fits into a byte. -/
theorem csize_bounds : 0 < start.csize ∧ start.csize ≤ 128 := by
  obtain ⟨exponent, small, power⟩ := placed.power
  rw [power]
  exact ⟨Nat.two_pow_pos exponent, Nat.pow_le_pow_right (by decide) small⟩

/-- A cluster has bytes. So it can be divided by. -/
theorem cluster_size_pos : 0 < clusterSize start :=
  Nat.mul_pos (csize_bounds start placed).1 (by decide)

/-- A sector of a cluster, by its place in the cluster. Clusters are counted from 2 on, from the
start of the data area. -/
theorem cluster_of_sector (clst place : Nat) (above : 2 ≤ clst) (inside : place < start.csize) :
    clusterOf start (start.database + (clst - 2) * start.csize + place) = clst := by
  have offset : start.database + (clst - 2) * start.csize + place - start.database =
      place + (clst - 2) * start.csize := by omega
  rw [clusterOf, offset, Nat.add_mul_div_right _ _ (csize_bounds start placed).1,
    Nat.div_eq_of_lt inside]
  omega

/-- A sector of a cluster is inside the disk. The data area ends with the disk at the latest. -/
theorem sector_inside (clst place : Nat) (inRange : InRange start clst)
    (inside : place < start.csize) :
    start.database + (clst - 2) * start.csize + place < sectorCount := by
  obtain ⟨above, below⟩ := inRange
  have next : (clst - 2 + 1) * start.csize ≤ (start.nFatent - 2) * start.csize :=
    Nat.mul_le_mul_right _ (by omega)
  have bound := placed.inside
  rw [Nat.succ_mul] at next
  omega

/-- An available sector is inside the disk. It is a sector of a cluster that is not lost. -/
theorem available_inside (lost : List Nat) (number : Nat)
    (available : Available start lost number) : number < sectorCount := by
  obtain ⟨behind, inRange, _⟩ := available
  have positive := (csize_bounds start placed).1
  have inside := sector_inside start placed (clusterOf start number)
    ((number - start.database) % start.csize) inRange (Nat.mod_lt _ positive)
  have parts := Nat.div_add_mod (number - start.database) start.csize
  rw [clusterOf, Nat.add_sub_cancel, Nat.mul_comm] at inside
  omega

/-- An available sector belongs to no FAT. The data area is behind the FATs. -/
theorem available_outside (lost : List Nat) (number : Nat)
    (available : Available start lost number) : OutsideFat start number :=
  Or.inr (placed.behind.trans available.1)

/-- The first sector of a cluster. The product does not wrap on the disk. -/
theorem clust2sect_inside (fs : FATFS) (layout : SameLayout start fs) (clst : Nat)
    (inRange : InRange start clst) :
    clust2sect fs clst = start.database + (clst - 2) * start.csize := by
  have csize : fs.csize = start.csize := by rw [layout]
  have base : fs.database = start.database := by rw [layout]
  have count : fs.nFatent = start.nFatent := by rw [layout]
  have sectors : sectorCount = 10240 := rfl
  have positive := (csize_bounds start placed).1
  obtain ⟨above, below⟩ := inRange
  have first := sector_inside start placed clst 0 ⟨above, below⟩ positive
  have last := placed.inside
  have fewer : clst - 2 ≤ (clst - 2) * start.csize := Nat.le_mul_of_pos_right _ positive
  have few : start.nFatent - 2 ≤ (start.nFatent - 2) * start.csize :=
    Nat.le_mul_of_pos_right _ positive
  rw [clust2sect, csize, base, count, dword_diff_small _ _ (by omega) above,
    dword_diff_small _ _ (by omega) (by omega), if_neg (by omega),
    dword_sum_small _ _ (by omega)]
  omega

section Chain

variable (chain : List Nat) (inRange : ∀ clst ∈ chain, InRange start clst) (index : Nat)
  (inside : index < start.csize * chain.length)

include inRange inside

/-- A block of a file belongs to its clusters. So no other file has it. -/
theorem data_sector_owned :
    Owns start chain (dataSector start chain index) ∧
      clusterOf start (dataSector start chain index) = chain.getD (index / start.csize) 0 := by
  obtain ⟨_, _, member⟩ := chain_block start chain index inside
  have above := (inRange _ member).1
  have cluster := cluster_of_sector start placed _ (index % start.csize) above
    (Nat.mod_lt _ (csize_bounds start placed).1)
  rw [← dataSector] at cluster
  refine ⟨⟨?_, cluster ▸ member⟩, cluster⟩
  rw [dataSector, Nat.add_assoc]
  exact Nat.le_add_right _ _

/-- A sector of a file is available. None of its clusters is lost. -/
theorem data_sector_available (lost : List Nat) (kept : ∀ clst ∈ chain, clst ∉ lost) :
    Available start lost (dataSector start chain index) := by
  obtain ⟨⟨behind, member⟩, _⟩ := data_sector_owned start placed chain inRange index inside
  exact ⟨behind, inRange _ member, kept _ member⟩

/-- Different blocks are different sectors. The clusters of a chain are different, and so are the
sectors of each. -/
theorem data_sector_injective (distinct : chain.Nodup) (other : Nat)
    (otherInside : other < start.csize * chain.length)
    (same : dataSector start chain index = dataSector start chain other) : index = other := by
  obtain ⟨first, _, _⟩ := chain_block start chain index inside
  obtain ⟨second, _, _⟩ := chain_block start chain other otherInside
  have cluster := (data_sector_owned start placed chain inRange index inside).2
  rw [same, (data_sector_owned start placed chain inRange other otherInside).2] at cluster
  have block : other / start.csize = index / start.csize := by
    rw [List.getD_eq_getElem?_getD, List.getD_eq_getElem?_getD, List.getElem?_eq_getElem first,
      List.getElem?_eq_getElem second, Option.getD_some, Option.getD_some] at cluster
    exact (List.Nodup.getElem_inj_iff distinct).mp cluster
  rw [dataSector, dataSector, cluster] at same
  have parts := Nat.div_add_mod index start.csize
  have otherParts := Nat.div_add_mod other start.csize
  rw [block] at otherParts
  omega

end Chain

/-- The blocks of a cluster follow each other. So several of them can be moved at once. -/
theorem data_sector_next (chain : List Nat) (index more : Nat)
    (inside : index % start.csize + more < start.csize) :
    dataSector start chain (index + more) = dataSector start chain index + more := by
  have positive := (csize_bounds start placed).1
  have parts := Nat.div_add_mod index start.csize
  have sum : index + more = start.csize * (index / start.csize) + (index % start.csize + more) := by
    omega
  obtain ⟨block, place⟩ := index_block start.csize positive (index / start.csize) _ inside
  rw [← sum] at block place
  rw [dataSector, dataSector, block, place]
  omega

/-- The sector of a byte inside its cluster. It counts from zero in each cluster. -/
theorem csect_place (file : OpenFile) (layout : SameLayout start file.volume.fs) :
    file.csect = file.fp.fptr / sectorSize % start.csize := by
  obtain ⟨exponent, small, power⟩ := placed.power
  have csize : file.volume.fs.csize = start.csize := by rw [layout]
  have bounds := csize_bounds start placed
  have mask : dwordDiff start.csize 1 = 2 ^ exponent - 1 := by
    rw [dword_diff_small _ _ (by omega) (by omega), power]
  have low := Nat.mod_lt (file.fp.fptr / sectorSize) bounds.1
  rw [OpenFile.csect, csize, mask, Nat.and_two_pow_sub_one_eq_mod, ← power,
    Nat.mod_eq_of_lt (by omega)]

end Area

/-! ## Volumes of files -/

section Volumes

variable (start : FATFS) (lost : List Nat)

/-- The clusters of a file belong to no other, and none of them is lost. These are the facts about
chains that work on one file needs. -/
theorem storage_cells (front back : List (List Nat)) (chain : List Nat) (volume : Volume)
    (storage : Storage start lost (front ++ chain :: back) volume) :
    chain.Nodup ∧ (∀ clst ∈ chain, InRange start clst) ∧ (∀ clst ∈ chain, clst ∉ lost) ∧
      ∀ other ∈ front ++ back, ∀ clst ∈ chain, clst ∉ other := by
  have holds := storage.consistent.holds
  have count : volume.fs.nFatent = start.nFatent := by rw [storage.layout]
  obtain ⟨distinct, cells, _⟩ := holds_chain _ _ _ _ _ _ _ holds
  have gathered := (cells_gathered lost front back chain).nodup_iff.mp holds.distinct
  have apart := (List.nodup_append.mp gathered).2.2
  refine ⟨distinct, fun clst member => ?_, fun clst member isLost => ?_,
    fun other which clst member shared => ?_⟩
  · rw [InRange, ← count]
    exact ⟨(cells clst member).1, (cells clst member).2.1⟩
  · exact apart clst member clst (List.mem_append_right _ isLost) rfl
  · refine apart clst member clst (List.mem_append_left _ ?_) rfl
    rw [← List.flatten_append]
    exact List.mem_flatten.mpr ⟨other, which, shared⟩

/-- The sector that is held is the one of the window. The window holds one sector or none. -/
theorem held_shown (volume : Volume) (number : Nat) (held : volume.cache.held = some number) :
    volume.fs.winsect = number := by
  by_cases isZero : volume.fs.winsect = 0
  · simp [Volume.cache, isZero] at held
  · simpa [Volume.cache, isZero] using held

/-- Away from the window the disk is seen. The window hides the sector that it holds and no
other. -/
theorem view_store (volume : Volume) (number : Nat) (away : volume.fs.winsect ≠ number) :
    volume.cache.view number = volume.cache.store number :=
  if_neg (fun held => away (held_shown volume number held))

/-- A step on the FAT leaves the data of files. The data area is behind the FATs. -/
theorem kept_storage (placed : DataPlaced start) (chains changed : List (List Nat))
    (volume after : Volume) (storage : Storage start lost chains volume)
    (kept : Kept volume after) (consistent : Consistent after lost changed) :
    Storage start lost changed after ∧ Calm start lost volume after := by
  have still : ∀ number, OutsideFat start number → OutsideFat volume.fs number :=
    fun number => (same_layout_outside start volume.fs storage.layout number).mpr
  have outside : ∀ number, Available start lost number → OutsideFat volume.fs number :=
    fun number available => still number (available_outside start placed lost number available)
  have away : ∀ number, Available start lost number → after.fs.winsect ≠ number :=
    fun number available => kept.apart number (outside number available)
      (storage.away number available)
  refine ⟨⟨by rw [SameLayout, kept.layout, storage.layout], consistent, away⟩,
    fun number available => ?_, fun number beside => kept.others number (still number beside.1)⟩
  rw [← view_store after number (away number available),
    ← view_store volume number (storage.away number available)]
  exact kept.others number (outside number available)

/-- Looking at the FAT leaves the storage as well. The data area has no sector of the FAT. -/
theorem relinked_storage (placed : DataPlaced start) (chains : List (List Nat))
    (volume after : Volume) (storage : Storage start lost chains volume)
    (relinked : Relinked volume volume.link after) :
    Storage start lost chains after ∧ Calm start lost volume after :=
  kept_storage start lost placed chains chains volume after storage
    (relinked_kept volume after volume.link relinked)
    (consistent_relinked volume after lost chains storage.consistent relinked)

/-- Writing the data of files leaves the FAT. The window does not show any of it. -/
theorem storage_written (placed : DataPlaced start) (chains : List (List Nat)) (volume : Volume)
    (pDisk0 : Stream) (storage : Storage start lost chains volume)
    (complete : diskSize ≤ pDisk0.bytes.length)
    (same : ∀ number, ¬ Available start lost number →
      sector sectorSize pDisk0.bytes number = volume.cache.store number) :
    Storage start lost chains { volume with pDisk0 } := by
  have mounted := storage.consistent.mounted
  have sound := mounted.sound
  have behind := placed.behind
  have base : volume.fs.fatbase = start.fatbase := by rw [storage.layout]
  have fats : volume.fs.nFats = start.nFats := by rw [storage.layout]
  have size : volume.fs.fsize = start.fsize := by rw [storage.layout]
  have one : start.fsize ≤ start.nFats * start.fsize :=
    Nat.le_mul_of_pos_left _ (fats ▸ sound.placed.present)
  have front : ∀ number, number < start.fatbase + start.nFats * start.fsize →
      sector sectorSize pDisk0.bytes number = volume.cache.store number := by
    intro number early
    exact same number (fun available => by
      have late := available.1
      omega)
  have coherent : Coherent (copies volume.fs) (Volume.cache { volume with pDisk0 }) := by
    refine ⟨fun number held clean => ?_, sound.coherent.owned, fun number clean copy isCopy => ?_⟩
    · refine (sound.coherent.clean number held clean).trans (same number ?_).symm
      exact fun available => storage.away number available (held_shown volume number held)
    · have above := copy_behind volume.fs number copy isCopy
      have original := (mem_copies volume.fs number copy).mp isCopy
      rw [base, fats, size] at above
      rw [base, size] at original
      refine (front copy above.2).trans (Eq.trans ?_ (front number (by omega)).symm)
      exact sound.coherent.mirrored number clean copy isCopy
  have mountedAfter : Mounted { volume with pDisk0 } :=
    ⟨⟨sound.placed, complete, sound.filled, sound.within, sound.behind, coherent⟩,
      mounted.known, mounted.present, mounted.roomy, mounted.limited⟩
  refine ⟨storage.layout, consistent_same volume _ lost chains storage.consistent mountedAfter rfl
    (fun clst below => ?_), storage.away⟩
  rw [link_entry_of]
  refine entry_of_congr volume mounted _ (fun number inside => ?_) clst below
  rw [Volume.fatSector, Volume.fatSector, Cache.view, Cache.view]
  refine if_congr Iff.rfl rfl (front _ ?_)
  have room := size ▸ inside
  show volume.fs.fatbase + number < _
  omega

/-- What is outside the data is seen as before. A file writes into available sectors alone. -/
theorem written_view (volume : Volume) (pDisk0 : Stream)
    (same : ∀ number, ¬ Available start lost number →
      sector sectorSize pDisk0.bytes number = volume.cache.store number) (number : Nat)
    (outside : ¬ Available start lost number) :
    (Volume.cache { volume with pDisk0 }).view number = volume.cache.view number := by
  rw [Cache.view, Cache.view]
  exact if_congr Iff.rfl rfl (same number outside)

end Volumes

/-! ## Transfers of the data -/

/-- The number of some sectors is a byte. Such a number is passed to the disk as one. -/
theorem count_word (count : Nat) (small : count < 256) : (UInt8.ofNat count).toNat = count :=
  UInt8.toNat_ofNat_of_lt' (by rw [UInt8.size]; omega)

/-- Sectors that are read from a whole disk. The range check of the disk passes, and nothing
wraps. -/
theorem disk_read_sectors (pDisk0 : Stream) (sect count : Nat)
    (complete : diskSize ≤ pDisk0.bytes.length) (small : count < 256)
    (inside : sect + count ≤ sectorCount) :
    ∃ rbuff position,
      diskRead pDisk0 (UInt32.ofNat sect) (UInt8.ofNat count) =
        (.ok, rbuff, ⟨pDisk0.bytes, position⟩) ∧
      rbuff.length = sectorSize * count ∧
      ∀ number < count, sector sectorSize rbuff number =
        sector sectorSize pDisk0.bytes (sect + number) := by
  have sectors : sectorCount = 10240 := rfl
  have word : (UInt32.ofNat sect).toNat = sect :=
    UInt32.toNat_ofNat_of_lt' (by rw [UInt32.size]; omega)
  have arrived := read_inside pDisk0 (UInt32.ofNat sect) (UInt8.ofNat count) complete
    (by rw [word, count_word count small]; exact inside)
  have room := window_fits (UInt32.ofNat sect) (UInt8.ofNat count) pDisk0 complete
    (by rw [word, count_word count small]; exact inside)
  rw [word, count_word count small] at arrived room
  refine ⟨_, _, arrived, ?_, fun number early => sector_window sectorSize _ _ _ _ early⟩
  rw [List.length_take, List.length_drop]
  omega

/-- Sectors that are written to a whole disk. The file behind the disk does not become shorter. -/
theorem disk_write_sectors (pDisk0 : Stream) (wbuff : List u8) (sect count beyond : Nat)
    (complete : diskSize ≤ pDisk0.bytes.length) (small : count < 256)
    (filled : sectorSize * count ≤ wbuff.length) (inside : sect + count ≤ sectorCount) :
    ∃ after,
      diskWrite pDisk0 wbuff (UInt32.ofNat sect) (UInt8.ofNat count) beyond = (.ok, after) ∧
      diskSize ≤ after.bytes.length ∧
      ∀ number, sector sectorSize after.bytes number =
        written sectorSize (sector sectorSize pDisk0.bytes) sect count
          (wbuff.take (sectorSize * count)) number := by
  have sectors : sectorCount = 10240 := rfl
  have word : (UInt32.ofNat sect).toNat = sect :=
    UInt32.toNat_ofNat_of_lt' (by rw [UInt32.size]; omega)
  have taken : (wbuff.take (sectorSize * count)).length = sectorSize * count :=
    List.length_take_of_le filled
  have wrote := write_inside pDisk0 (wbuff.take (sectorSize * count)) (UInt32.ofNat sect)
    (UInt8.ofNat count) beyond complete (by rw [count_word count small]; exact taken)
    (by rw [word, count_word count small]; exact inside)
  have room := window_fits (UInt32.ofNat sect) (UInt8.ofNat count) pDisk0 complete
    (by rw [word, count_word count small]; exact inside)
  have same : diskWrite pDisk0 (wbuff.take (sectorSize * count)) (UInt32.ofNat sect)
      (UInt8.ofNat count) beyond =
      diskWrite pDisk0 wbuff (UInt32.ofNat sect) (UInt8.ofNat count) beyond := by
    rw [diskWrite, diskWrite, count_word count small, List.take_take, Nat.min_self]
  rw [word] at wrote room
  rw [count_word count small] at room
  refine ⟨_, same ▸ wrote, ?_, fun number => ?_⟩
  · rw [overwrite_length _ _ _ (by rw [taken]; exact room)]
    exact complete
  · exact sector_overwrite sectorSize pDisk0.bytes _ sect count number taken
      (by rw [Nat.mul_add]; exact room)

/-! ## Steps of the buffer -/

section Buffer

variable (start : FATFS) (lost : List Nat) (chains : List (List Nat)) (chain : List Nat)
  (file : OpenFile)

/-- Every block is its own. The data area is not kept twice. -/
theorem primary_none (number : Nat) : Primary noCopies number :=
  fun _ member => absurd member List.not_mem_nil

/-- No copies are apart. There is nothing to be apart. -/
theorem separate_none : Separate noCopies :=
  ⟨fun _ _ _ member => absurd member List.not_mem_nil,
    fun _ _ member => absurd member List.not_mem_nil⟩

/-- The sector that is held is the one of the buffer. Zero stands for an empty buffer. -/
theorem held_dsect (number : Nat) (held : file.cache.held = some number) :
    file.fp.dsect = number ∧ file.fp.dsect ≠ 0 := by
  by_cases isZero : file.fp.dsect = 0
  · simp [OpenFile.cache, isZero] at held
  · exact ⟨by simpa [OpenFile.cache, isZero] using held, isZero⟩

/-- A cache whose data is on the disk as before is seen as before. The buffer of the file is as
before, too. -/
theorem data_view (after : Volume) (same : SameData start lost file.volume after) (number : Nat)
    (available : Available start lost number) :
    (OpenFile.cache ⟨after, file.fp⟩).view number = file.cache.view number := by
  rw [Cache.view, Cache.view]
  exact if_congr Iff.rfl rfl (same number available)

/-- A cache whose data is on the disk as before is coherent as before. Its block is compared with
the store where it is clean. -/
theorem data_coherent (after : Volume) (same : SameData start lost file.volume after)
    (backed : Backed start lost chain file) :
    Coherent noCopies (OpenFile.cache ⟨after, file.fp⟩) := by
  refine ⟨fun number held clean => ?_, backed.coherent.owned,
    fun number _ copy member => absurd member List.not_mem_nil⟩
  obtain ⟨shown, nonzero⟩ := held_dsect file number held
  have available := backed.settled.resolve_left nonzero
  exact (backed.coherent.clean number held clean).trans (same number (shown ▸ available)).symm

/-- Writing the buffer back flushes the cache. If it is clean nothing is written. -/
theorem write_back_buf_flushes (placed : DataPlaced start)
    (storage : Storage start lost chains file.volume) (backed : Backed start lost chain file) :
    ∃ pDisk0, file.writeBackBuf =
        (.ok, ⟨{ file.volume with pDisk0 }, { file.fp with faDirty := false }⟩) ∧
      Storage start lost chains { file.volume with pDisk0 } ∧
      OpenFile.cache ⟨{ file.volume with pDisk0 }, { file.fp with faDirty := false }⟩ =
        file.cache.flush noCopies ∧
      ∀ number, ¬ Available start lost number →
        (Volume.cache { file.volume with pDisk0 }).view number =
          file.volume.cache.view number := by
  have sound := storage.consistent.mounted.sound
  cases dirty : file.fp.faDirty with
  | false =>
    have same : ({ file.fp with faDirty := false } : FIL) = file.fp := by rw [← dirty]
    refine ⟨file.volume.pDisk0, ?_, storage, ?_, fun _ _ => rfl⟩
    · rw [OpenFile.writeBackBuf, if_neg (by simp [dirty]), same]
    · rw [same, flush_clean _ _ dirty]
  | true =>
    obtain ⟨number, held, _⟩ := backed.coherent.owned dirty
    obtain ⟨rfl, nonzero⟩ := held_dsect file number held
    have available := backed.settled.resolve_left nonzero
    have inside := available_inside start placed lost _ available
    obtain ⟨after, wrote, complete, stored⟩ := disk_write_sectors file.volume.pDisk0 file.fp.buf
      file.fp.dsect 1 file.volume.beyond sound.complete (by decide) (by rw [backed.filled]; rfl)
      inside
    have one : sectorSize * 1 = file.fp.buf.length := backed.filled.symm
    rw [one, List.take_length] at stored
    have spreads : ∀ other, sector sectorSize after.bytes other =
        if other = file.fp.dsect then file.fp.buf else file.volume.cache.store other := by
      intro other
      rw [stored, written]
      by_cases same : other = file.fp.dsect
      · rw [if_pos (by omega), if_pos same, same, Nat.sub_self, sector, Nat.mul_zero,
          List.drop_zero,
          List.take_of_length_le backed.filled.le]
      · rw [if_neg (by omega), if_neg same]
        rfl
    have outside : ∀ other, ¬ Available start lost other →
        sector sectorSize after.bytes other = file.volume.cache.store other := by
      intro other away
      have apart : other ≠ file.fp.dsect := fun same => away (by rw [same]; exact available)
      rw [spreads, if_neg apart]
    refine ⟨after, ?_, storage_written start lost placed chains file.volume after storage complete
      outside, ?_, written_view start lost file.volume after outside⟩
    · have word : UInt8.ofNat 1 = 1 := rfl
      rw [word] at wrote
      rw [OpenFile.writeBackBuf, if_pos dirty, wrote]
    · rw [flush_dirty noCopies file.cache file.fp.dsect held dirty]
      refine Cache.ext (funext fun other => ?_) held rfl rfl
      simp only [spread, noCopies, List.mem_singleton]
      exact spreads other

/-- A flush changes the store at the block that is held only. The other blocks of the store are
not written. -/
theorem flush_apart (cache : Cache (List u8)) (number : Nat) (apart : cache.held ≠ some number) :
    (cache.flush noCopies).store number = cache.store number := by
  rw [Cache.flush]
  split
  · rfl
  · rename_i other held
    split
    · have different : number ≠ other := fun same => apart (by rw [held, same])
      simp only [spread, noCopies, List.mem_singleton, if_neg different]
    · rfl

/-- An available sector is not the first of the disk. So it is never taken for an empty buffer. -/
theorem available_pos (placed : DataPlaced start) (volume : Volume)
    (storage : Storage start lost chains volume) (number : Nat)
    (available : Available start lost number) : 0 < number := by
  have reserved := storage.consistent.mounted.sound.placed.reserved
  have base : volume.fs.fatbase = start.fatbase := by rw [storage.layout]
  have behind := placed.behind
  have late := available.1
  omega

/-- Filling the buffer reads a sector of the disk. What the buffer held is lost. -/
theorem fill_buf_reads (storage : Storage start lost chains file.volume)
    (filled : file.fp.buf.length = sectorSize) (sect : Nat) (inside : sect < sectorCount) :
    ∃ position, file.fillBuf sect =
        (.ok, ⟨{ file.volume with pDisk0 := ⟨file.volume.pDisk0.bytes, position⟩ },
          { file.fp with buf := file.volume.cache.store sect }⟩) ∧
      (file.volume.cache.store sect).length = sectorSize := by
  have complete := storage.consistent.mounted.sound.complete
  obtain ⟨rbuff, position, arrived, length, same⟩ := disk_read_sectors file.volume.pDisk0 sect 1
    complete (by decide) inside
  rw [Nat.mul_one] at length
  have block : rbuff = file.volume.cache.store sect := by
    have first := same 0 Nat.one_pos
    rw [sector, Nat.mul_zero, List.drop_zero, List.take_of_length_le length.le] at first
    exact first
  have put : overwrite file.fp.buf 0 rbuff = rbuff := by
    rw [overwrite, List.take_zero, List.nil_append, Nat.zero_add, length,
      List.drop_of_length_le filled.le, List.append_nil]
  refine ⟨position, ?_, by rw [← block, length]⟩
  have word : UInt8.ofNat 1 = 1 := rfl
  rw [word] at arrived
  rw [OpenFile.fillBuf, arrived]
  dsimp only
  rw [put, block, if_pos rfl]

/-- A volume whose disk was read. Only the position in the file of the disk is another. -/
theorem storage_read (volume : Volume) (position : Nat)
    (storage : Storage start lost chains volume) :
    Storage start lost chains
      { volume with pDisk0 := ⟨volume.pDisk0.bytes, position⟩ } := by
  have mounted := storage.consistent.mounted
  have sound := mounted.sound
  refine ⟨storage.layout, ?_, storage.away⟩
  exact consistent_same volume _ lost chains storage.consistent
    ⟨⟨sound.placed, sound.complete, sound.filled, sound.within, sound.behind, sound.coherent⟩,
      mounted.known, mounted.present, mounted.roomy, mounted.limited⟩ rfl (fun _ _ => rfl)

/-- Exchanging the buffer fetches a sector in the cache. The bytes of the file are seen as
before. -/
theorem exchange_buf_fetches (placed : DataPlaced start)
    (storage : Storage start lost chains file.volume) (backed : Backed start lost chain file)
    (sect : Nat) (available : Available start lost sect) (apart : file.fp.dsect ≠ sect) :
    ∃ volume, file.exchangeBuf sect = (.ok, ⟨volume, { file.fp with
        faDirty := false, dsect := sect, buf := file.cache.view sect }⟩) ∧
      Storage start lost chains volume ∧
      OpenFile.cache ⟨volume, { file.fp with
        faDirty := false, dsect := sect, buf := file.cache.view sect }⟩ =
          file.cache.fetch noCopies sect ∧
      (file.cache.view sect).length = sectorSize ∧
      (∀ number, number ≠ file.fp.dsect →
        volume.cache.store number = file.volume.cache.store number) ∧
      ∀ number, ¬ Available start lost number →
        volume.cache.view number = file.volume.cache.view number := by
  have inside := available_inside start placed lost sect available
  have nonzero := available_pos start lost chains placed _ storage sect available
  obtain ⟨pDisk0, wrote, flushedStorage, flushed, outside⟩ :=
    write_back_buf_flushes start lost chains chain file placed storage backed
  obtain ⟨position, read, length⟩ := fill_buf_reads start lost chains
    ⟨{ file.volume with pDisk0 }, { file.fp with faDirty := false }⟩ flushedStorage backed.filled
    sect inside
  have stored : (Volume.cache { file.volume with pDisk0 }).store sect = file.cache.view sect := by
    rw [← flush_store noCopies file.cache backed.coherent sect (primary_none sect), ← flushed]
    rfl
  dsimp only at read length
  rw [stored] at read length
  have notHeld : file.cache.held ≠ Option.some sect :=
    fun held => apart (held_dsect file sect held).1
  have settled := flush_settles noCopies file.cache backed.coherent
  refine ⟨_, ?_, storage_read start lost chains _ position flushedStorage, ?_, length,
    fun number other => ?_, outside⟩
  · rw [OpenFile.exchangeBuf, wrote]
    dsimp only
    rw [read]
  · rw [Cache.fetch, if_neg notHeld, ← flushed]
    refine Cache.ext rfl (if_neg (Nat.pos_iff_ne_zero.mp nonzero)) ?_ rfl
    exact stored.symm
  · have away : file.cache.held ≠ Option.some number :=
      fun held => other (held_dsect file number held).1.symm
    exact (congrArg (fun cache => cache.store number) flushed).trans
      (flush_apart file.cache number away)

end Buffer

end EffiLib.FatFs
