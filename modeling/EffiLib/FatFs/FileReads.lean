import EffiLib.FatFs.FileSectors

/-!
# Reading a file

`f_read` delivers the bytes of the file from its pointer on, as many as there are. Whole
sectors come from the disk and the others through the buffer; what the buffer has changed is
delivered either way. Reading changes no byte of the file, and none of another.
-/

namespace EffiLib.FatFs

open Buffers Sectors BlockCache PlacedBytes ChainTable

/-- What a step on a file leaves: a consistent volume with the file on its chain. Data is changed
on the disk in sectors of the chain only, and in the one that was in the buffer. -/
structure Served (start : FATFS) (lost : List Nat) (front back : List (List Nat))
    (file after : OpenFile) (changed : List Nat) : Prop where
  storage : Storage start lost (front ++ changed :: back) after.volume
  backed : Backed start lost changed after
  others : ∀ number, Available start lost number → ¬ Owns start changed number →
    number ≠ file.fp.dsect → after.volume.cache.store number = file.volume.cache.store number
  place : after.fp.dsect = file.fp.dsect ∨ Owns start changed after.fp.dsect
  beside : ∀ number, Beside start lost number →
    after.volume.cache.view number = file.volume.cache.view number

/-- A step on the FAT, which leaves the buffer. The current cluster may be another behind it, but
the sector in the buffer is not. -/
theorem served_calm (start : FATFS) (lost : List Nat) (front back : List (List Nat))
    (file after : OpenFile) (changed : List Nat)
    (storage : Storage start lost (front ++ changed :: back) after.volume)
    (backed : Backed start lost changed after) (calm : Calm start lost file.volume after.volume)
    (same : after.fp.dsect = file.fp.dsect) : Served start lost front back file after changed :=
  ⟨storage, backed, fun number available _ _ => calm.data number available, Or.inl same,
  calm.others⟩

/-- The file object but for its pointer, its cluster and its buffer. Its size and its first
cluster are among what is the same. -/
def SameFile (fp after : FIL) : Prop :=
  after = { fp with
    fptr := after.fptr, clust := after.clust, dsect := after.dsect, buf := after.buf,
    faDirty := after.faDirty }

/-- In front of a place that is no boundary the block is the same. So the byte before the pointer
is in the same sector or cluster. -/
theorem pred_div (place size : Nat) (off : place % size ≠ 0) :
    (place - 1) / size = place / size := by
  cases place with
  | zero => rfl
  | succ place =>
    rw [Nat.succ_sub_one, Nat.succ_div, if_neg (fun whole => off (Nat.mod_eq_zero_of_dvd whole)),
      Nat.add_zero]

/-- In front of a boundary is the block before. The byte before the pointer belongs to that
one. -/
theorem pred_div_boundary (place size : Nat) (nonzero : 0 < place) (on : place % size = 0) :
    place / size = (place - 1) / size + 1 := by
  cases place with
  | zero => exact absurd nonzero (Nat.lt_irrefl 0)
  | succ place => rw [Nat.succ_sub_one, Nat.succ_div, if_pos (Nat.dvd_of_mod_eq_zero on)]

section Reads

variable (start : FATFS) (placed : DataPlaced start) (lost : List Nat)
  (front back : List (List Nat)) (chain : List Nat) (file : OpenFile)

/-- The files take no more than the disk. So a pointer into a file is a word that does not
wrap. -/
theorem chain_bytes (placed : DataPlaced start) (volume : Volume)
    (storage : Storage start lost (front ++ chain :: back) volume) :
    clusterSize start * chain.length ≤ diskSize := by
  obtain ⟨distinct, inRange, _, _⟩ := storage_cells start lost front back chain volume storage
  have subset : chain ⊆ List.range' 2 (start.nFatent - 2) := by
    intro clst member
    obtain ⟨above, below⟩ := inRange clst member
    exact List.mem_range'_1.mpr ⟨above, by omega⟩
  have few := (distinct.subperm subset).length_le
  rw [List.length_range'] at few
  have sectors := Nat.mul_le_mul_left start.csize few
  have inside := placed.inside
  have total : start.csize * chain.length ≤ sectorCount := by
    rw [Nat.mul_comm start.csize (start.nFatent - 2)] at sectors
    omega
  have sizes : diskSize = sectorSize * sectorCount := rfl
  rw [clusterSize, Nat.mul_comm start.csize, Nat.mul_assoc, sizes]
  exact Nat.mul_le_mul_left _ total

/-- The clusters of a chain are linked. `get_fat` answers the next one of the chain. -/
theorem chain_next (volume : Volume) (consistent : Consistent volume lost (front ++ chain :: back))
    (index clst next : Nat) (here : chain[index]? = some clst)
    (behind : chain[index + 1]? = some next) :
    InRange volume.fs clst ∧ volume.link clst = next := by
  obtain ⟨nextInside, nextIs⟩ := List.getElem?_eq_some_iff.mp behind
  obtain ⟨inside, isClst⟩ := List.getElem?_eq_some_iff.mp here
  have around : chain = chain.take index ++ clst :: next :: chain.drop (index + 2) := by
    rw [← isClst, ← nextIs, ← List.drop_eq_getElem_cons nextInside,
      ← List.drop_eq_getElem_cons inside, List.take_append_drop]
  rw [around] at consistent
  obtain ⟨inRange, _, last, _, path⟩ := chain_cell _ _ _ _ _ _ _ consistent
  exact ⟨inRange, path.1⟩

include placed

/-- On a sector boundary the cluster of the pointer is found. It is the first of the chain or the
one behind the current. -/
theorem read_cluster_follows (storage : Storage start lost (front ++ chain :: back) file.volume)
    (tracks : Tracks start lost chain file) (boundary : file.fp.fptr % sectorSize = 0)
    (more : file.fp.fptr < clusterSize start * chain.length) :
    ∃ volume clst, file.readCluster = (.ok, ⟨volume, { file.fp with clust := clst }⟩) ∧
      chain[file.fp.fptr / clusterSize start]? = some clst ∧
      Storage start lost (front ++ chain :: back) volume ∧
      Calm start lost file.volume volume := by
  have csect := csect_place start placed file storage.layout
  have cluster := byte_cluster start file.fp.fptr
  have there : file.fp.fptr / clusterSize start < chain.length := Nat.div_lt_of_lt_mul more
  obtain ⟨clst, element⟩ : ∃ clst, chain[file.fp.fptr / clusterSize start]? = some clst :=
    ⟨_, List.getElem?_eq_getElem there⟩
  have count : file.volume.fs.nFatent = start.nFatent := by rw [storage.layout]
  obtain ⟨_, inRange, _, _⟩ := storage_cells start lost front back chain _ storage
  have limited := storage.consistent.mounted.limited
  have range := entry_range_small file.volume.fs.fsType
  have proper := inRange clst (List.mem_of_getElem? element)
  by_cases first : file.csect = 0
  · by_cases top : file.fp.fptr = 0
    · have head : file.fp.sclust = clst := by
        rw [top, Nat.zero_div] at element
        rw [tracks.backed.started, List.headD_eq_head?_getD, List.head?_eq_getElem?, element,
          Option.getD_some]
      refine ⟨file.volume, file.fp.sclust, ?_, by rw [element, head], storage, calm_refl ..⟩
      rw [InRange, ← head] at proper
      rw [OpenFile.readCluster, if_pos first, if_pos top]
      dsimp only
      rw [if_neg (by omega), if_neg (by omega)]
    · have onCluster : file.fp.fptr % clusterSize start = 0 := by
        rw [clusterSize, Nat.mul_comm, Nat.mod_mul, boundary, ← csect, first, Nat.mul_zero]
      have before := pred_div_boundary _ _ (Nat.pos_of_ne_zero top) onCluster
      have current := tracks.current (Nat.pos_of_ne_zero top)
      have behind := element
      rw [before] at behind
      obtain ⟨cellRange, linked⟩ := chain_next lost front back chain file.volume storage.consistent
        _ file.fp.clust clst current behind
      obtain ⟨after, read, same⟩ := get_fat_reads file.volume storage.consistent.mounted _ cellRange
      obtain ⟨kept, calm⟩ := relinked_storage start lost placed _ file.volume after storage same
      refine ⟨after, _, ?_, element, kept, calm⟩
      rw [OpenFile.readCluster, if_pos first, if_neg top, read, linked]
      rw [InRange] at proper
      dsimp only
      rw [if_neg (by omega), if_neg (by omega)]
  · have inCluster : file.fp.fptr % clusterSize start ≠ 0 := by
      rw [clusterSize, Nat.mul_comm, Nat.mod_mul, boundary, ← csect, Nat.zero_add]
      exact Nat.mul_ne_zero (by decide) first
    have nonzero : 0 < file.fp.fptr :=
      Nat.pos_of_ne_zero (fun isZero => inCluster (by rw [isZero, Nat.zero_mod]))
    have current := tracks.current nonzero
    rw [pred_div _ _ inCluster] at current
    exact ⟨file.volume, file.fp.clust, by rw [OpenFile.readCluster, if_neg first], current, storage,
      calm_refl ..⟩

omit placed in
/-- What the buffer has changed is seen in it, and the rest on the disk. This is the cache of one
block over the sectors of the file. -/
theorem view_dirty (backed : Backed start lost chain file) (number : Nat) :
    file.cache.view number =
      if file.fp.faDirty = true ∧ file.fp.dsect = number then file.fp.buf
      else file.volume.cache.store number := by
  rw [Cache.view]
  by_cases held : file.cache.held = some number
  · rw [if_pos held]
    by_cases dirty : file.fp.faDirty = true
    · rw [if_pos ⟨dirty, (held_dsect file number held).1⟩]
      rfl
    · rw [if_neg (fun both => dirty both.1)]
      exact backed.coherent.clean number held (Bool.eq_false_iff.mpr dirty)
  · rw [if_neg held, if_neg]
    · rfl
    · rintro ⟨dirty, same⟩
      obtain ⟨other, isHeld, _⟩ := backed.coherent.owned dirty
      rw [isHeld, ← (held_dsect file other isHeld).1, same] at held
      exact held rfl

/-- The sectors that are moved at once lie in one cluster. There is at least one of them. -/
theorem contiguous_bounds (layout : SameLayout start file.volume.fs) (bytes : Nat)
    (nonzero : bytes / sectorSize ≠ 0) :
    0 < file.contiguous bytes ∧ file.contiguous bytes ≤ bytes / sectorSize ∧
      file.fp.fptr / sectorSize % start.csize + file.contiguous bytes ≤ start.csize := by
  have csize : file.volume.fs.csize = start.csize := by rw [layout]
  have bounds := csize_bounds start placed
  have low := Nat.mod_lt (file.fp.fptr / sectorSize) bounds.1
  rw [OpenFile.contiguous, csize, csect_place start placed file layout]
  generalize bytes / sectorSize = cc at *
  split
  · rw [dword_diff_small _ _ (by omega) (by omega)]
    omega
  · omega

/-- The buffer is one of some sectors exactly if its distance is small. The source compares a
difference of words with a count. -/
theorem near_buffer (backed : Backed start lost chain file) (first cc : Nat)
    (inside : first + cc ≤ sectorCount) :
    (dwordDiff file.fp.dsect first < cc →
      file.fp.dsect = first + dwordDiff file.fp.dsect first) ∧
    ∀ place < cc, file.fp.dsect = first + place → dwordDiff file.fp.dsect first = place := by
  have sectors : sectorCount = 10240 := rfl
  have small : file.fp.dsect < 2 ^ 32 := by
    rcases backed.settled with isZero | settled
    · omega
    · have bound := available_inside start placed lost _ settled
      omega
  constructor
  · intro near
    rw [dwordDiff] at near ⊢
    omega
  · intro place early here
    rw [dword_diff_small _ _ small (by omega)]
    omega

omit placed in
/-- Whole sectors of one cluster of a file are sectors of the file. So a read of them does not
leave the file. -/
theorem sectors_inside (placed : DataPlaced start) (index cc : Nat)
    (together : index % start.csize + cc ≤ start.csize)
    (inside : index < start.csize * chain.length) (number : Nat) (early : number < cc) :
    index + number < start.csize * chain.length := by
  have positive := (csize_bounds start placed).1
  have parts := Nat.div_add_mod index start.csize
  have there : index / start.csize < chain.length := Nat.div_lt_of_lt_mul inside
  have room := Nat.mul_le_mul_left start.csize there
  rw [Nat.mul_succ] at room
  omega

/-- The sectors of one cluster follow each other and are available. So one request of the disk
moves them all. -/
theorem sectors_together (volume : Volume)
    (storage : Storage start lost (front ++ chain :: back) volume) (index cc : Nat)
    (together : index % start.csize + cc ≤ start.csize)
    (inside : index < start.csize * chain.length) (number : Nat) (early : number < cc) :
    dataSector start chain (index + number) = dataSector start chain index + number ∧
      Owns start chain (dataSector start chain index + number) ∧
      Available start lost (dataSector start chain index + number) := by
  obtain ⟨_, inRange, kept, _⟩ := storage_cells start lost front back chain _ storage
  have within := sectors_inside start chain placed index cc together inside number early
  have next := data_sector_next start placed chain index number (by omega)
  rw [← next]
  exact ⟨rfl, (data_sector_owned start placed chain inRange _ within).1,
    data_sector_available start placed chain inRange _ within lost kept⟩

/-- Whole sectors that are read past the buffer are bytes of the file. They lie in one cluster, so
they are neighbours on the disk. -/
theorem read_direct_piece (storage : Storage start lost (front ++ chain :: back) file.volume)
    (backed : Backed start lost chain file) (index cc : Nat) (nonzero : 0 < cc)
    (together : index % start.csize + cc ≤ start.csize)
    (inside : index < start.csize * chain.length) :
    ∃ position, file.readDirect (dataSector start chain index) cc =
      (.ok, piece (file.byte start chain) (sectorSize * index) (sectorSize * cc),
        { file with volume := { file.volume with
          pDisk0 := ⟨file.volume.pDisk0.bytes, position⟩ } }) := by
  have bounds := csize_bounds start placed
  have sectors : sectorCount = 10240 := rfl
  have positive : 0 < sectorSize := by decide
  have next := sectors_together start placed lost front back chain _ storage index cc together
    inside
  have last := available_inside start placed lost _ (next (cc - 1) (by omega)).2.2
  obtain ⟨rbuff, position, read, length, same⟩ := disk_read_sectors file.volume.pDisk0
    (dataSector start chain index) cc storage.consistent.mounted.sound.complete (by omega)
    (by omega)
  refine ⟨position, ?_⟩
  generalize firstIs : dataSector start chain index = first at *
  have near := near_buffer start placed lost chain file backed first cc (by omega)
  rw [OpenFile.readDirect, read]
  dsimp only
  congr 2
  split
  · rename_i patched
    have put := near.1 patched.2
    generalize dwordDiff file.fp.dsect first = place at *
    have filled : file.fp.buf.length = sectorSize * 1 := backed.filled
    have room : sectorSize * (place + 1) ≤ rbuff.length := by
      rw [length]
      exact Nat.mul_le_mul_left _ patched.2
    refine blocks_piece sectorSize positive _ index cc _ ?_ (fun number early => ?_)
    · rw [overwrite_length _ _ _ (by rw [filled, ← Nat.mul_add]; exact room), length]
    · rw [sector_overwrite sectorSize rbuff _ place 1 number filled room, written,
        (next number early).1, view_dirty start lost chain file backed]
      by_cases here : number = place
      · rw [if_pos (by omega), if_pos ⟨patched.1, by omega⟩, here, Nat.sub_self, sector,
          Nat.mul_zero,
          List.drop_zero, List.take_of_length_le backed.filled.le]
      · rw [if_neg (by omega), if_neg (by omega), same number early]
        rfl
  · rename_i unpatched
    refine blocks_piece sectorSize positive _ index cc _ length (fun number early => ?_)
    rw [same number early, (next number early).1, view_dirty start lost chain file backed, if_neg]
    · rfl
    · rintro ⟨dirty, here⟩
      refine unpatched ⟨dirty, ?_⟩
      rw [near.2 number early here]
      exact early

/-- The bytes that are taken out of the buffer are bytes of the file. No more are taken than the
sector has. -/
theorem read_buf_piece (storage : Storage start lost (front ++ chain :: back) file.volume)
    (backed : Backed start lost chain file) (btr : Nat)
    (inside : file.fp.fptr < clusterSize start * chain.length)
    (held : file.fp.dsect = dataSector start chain (file.fp.fptr / sectorSize)) :
    file.readBuf btr = piece (file.byte start chain) file.fp.fptr
      (min (sectorSize - file.fp.fptr % sectorSize) btr) := by
  obtain ⟨_, inRange, kept, _⟩ := storage_cells start lost front back chain _ storage
  have positive : 0 < sectorSize := by decide
  have small := Nat.mod_lt file.fp.fptr positive
  have available := data_sector_available start placed chain inRange _
    (byte_block start chain file.fp.fptr inside) lost kept
  have nonzero := available_pos start lost _ placed file.volume storage _ available
  have shown : file.cache.view (dataSector start chain (file.fp.fptr / sectorSize)) =
    file.fp.buf := by
    rw [Cache.view, ← held]
    exact if_pos (if_neg (by omega))
  have part := block_piece sectorSize positive
    (fun index => file.cache.view (dataSector start chain index)) (file.fp.fptr / sectorSize)
    (file.fp.fptr % sectorSize) (min (sectorSize - file.fp.fptr % sectorSize) btr)
    (by rw [shown]; exact backed.filled) (by omega)
  rw [Nat.div_add_mod, shown] at part
  exact part

omit placed in
/-- Behind some bytes of one cluster the pointer is tracked. They may reach the end of the
cluster. -/
theorem advance_tracks (storage : Storage start lost (front ++ chain :: back) file.volume)
    (placed : DataPlaced start) (backed : Backed start lost chain file) (count : Nat)
    (moved : 0 < count) (inside : file.fp.fptr < clusterSize start * chain.length)
    (together : file.fp.fptr % clusterSize start + count ≤ clusterSize start)
    (current : chain[file.fp.fptr / clusterSize start]? = some file.fp.clust)
    (held : (file.fp.fptr + count) % sectorSize ≠ 0 →
      file.fp.dsect = dataSector start chain ((file.fp.fptr + count) / sectorSize)) :
    Tracks start lost chain (file.advance count) ∧
      (file.advance count).fp.fptr = file.fp.fptr + count := by
  have positive := cluster_size_pos start placed
  have there : file.fp.fptr / clusterSize start < chain.length := Nat.div_lt_of_lt_mul inside
  have parts := Nat.div_add_mod file.fp.fptr (clusterSize start)
  have next := Nat.mul_le_mul_left (clusterSize start) there
  rw [Nat.mul_succ] at next
  have bytes := chain_bytes start lost front back chain placed file.volume storage
  have disk : diskSize < 2 ^ 32 := by decide
  have sum : dwordSum file.fp.fptr count = file.fp.fptr + count :=
    dword_sum_small _ _ (by omega)
  have pointer : (file.advance count).fp.fptr = file.fp.fptr + count := sum
  have same : (file.fp.fptr + count - 1) / clusterSize start =
      file.fp.fptr / clusterSize start := by
    have split : file.fp.fptr + count - 1 = clusterSize start * (file.fp.fptr / clusterSize start) +
        (file.fp.fptr % clusterSize start + count - 1) := by omega
    have early : file.fp.fptr % clusterSize start + count - 1 < clusterSize start := by omega
    rw [split, Nat.mul_add_div positive, Nat.div_eq_of_lt early, Nat.add_zero]
  refine ⟨⟨⟨backed.valid, backed.going, backed.started, backed.sized, backed.filled,
    backed.coherent, backed.settled⟩, ?_, fun _ => ?_, fun off => ?_⟩, pointer⟩
  · rw [pointer]
    omega
  · rw [pointer, same]
    exact current
  · rw [pointer] at off ⊢
    exact held off

omit placed in
/-- A part of a sector is in one cluster. A cluster is made of whole sectors. -/
theorem sector_together (placed : DataPlaced start) (place count : Nat)
    (part : place % sectorSize + count ≤ sectorSize) :
    place % clusterSize start + count ≤ clusterSize start := by
  have bounds := csize_bounds start placed
  have low := Nat.mod_lt (place / sectorSize) bounds.1
  have whole := Nat.mul_le_mul_left sectorSize (Nat.succ_le_of_lt low)
  rw [Nat.mul_succ] at whole
  rw [clusterSize, Nat.mul_comm start.csize, Nat.mod_mul]
  omega

/-- Bytes that are taken out of the buffer, with the pointer behind them. Some byte is taken in
each pass. -/
theorem read_buf_step (storage : Storage start lost (front ++ chain :: back) file.volume)
    (backed : Backed start lost chain file) (btr : Nat) (more : 0 < btr)
    (inside : file.fp.fptr < clusterSize start * chain.length)
    (current : chain[file.fp.fptr / clusterSize start]? = some file.fp.clust)
    (held : file.fp.dsect = dataSector start chain (file.fp.fptr / sectorSize)) :
    ∃ count, file.readBuf btr = piece (file.byte start chain) file.fp.fptr count ∧
      0 < count ∧ count ≤ btr ∧ Tracks start lost chain (file.advance count) ∧
      (file.advance count).fp.fptr = file.fp.fptr + count := by
  have small := Nat.mod_lt file.fp.fptr (show 0 < sectorSize by decide)
  have parts := Nat.div_add_mod file.fp.fptr sectorSize
  refine ⟨min (sectorSize - file.fp.fptr % sectorSize) btr,
    read_buf_piece start placed lost front back chain file storage backed btr inside held,
    by omega, by omega, ?_⟩
  refine advance_tracks start lost front back chain file storage placed backed _ (by omega) inside
    (sector_together start placed _ _ (by omega)) current (fun off => ?_)
  have split : file.fp.fptr + min (sectorSize - file.fp.fptr % sectorSize) btr =
      sectorSize * (file.fp.fptr / sectorSize) +
        (file.fp.fptr % sectorSize + min (sectorSize - file.fp.fptr % sectorSize) btr) := by omega
  have early : file.fp.fptr % sectorSize +
      min (sectorSize - file.fp.fptr % sectorSize) btr < sectorSize := by
    refine Nat.lt_of_le_of_ne (by omega) (fun whole => off ?_)
    rw [split, whole, Nat.mul_add_mod, Nat.mod_self]
  rw [split, (index_block sectorSize (by decide) _ _ early).1, held]

/-- The sector of the pointer, as `f_read` and `f_write` compute it. It is zero for a cluster that
is not one. -/
theorem current_sector (storage : Storage start lost (front ++ chain :: back) file.volume)
    (current : chain[file.fp.fptr / clusterSize start]? = some file.fp.clust)
    (inside : file.fp.fptr < clusterSize start * chain.length) :
    clust2sect file.volume.fs file.fp.clust ≠ 0 ∧
      dwordSum (clust2sect file.volume.fs file.fp.clust) file.csect =
        dataSector start chain (file.fp.fptr / sectorSize) := by
  obtain ⟨_, inRange, kept, _⟩ := storage_cells start lost front back chain _ storage
  have cell := inRange _ (List.mem_of_getElem? current)
  have available := data_sector_available start placed chain inRange _
    (byte_block start chain file.fp.fptr inside) lost kept
  have bound := available_inside start placed lost _ available
  have sectors : sectorCount = 10240 := rfl
  have behind := placed.behind
  have reserved := storage.consistent.mounted.sound.placed.reserved
  have base : file.volume.fs.fatbase = start.fatbase := by rw [storage.layout]
  have element : chain.getD (file.fp.fptr / clusterSize start) 0 = file.fp.clust := by
    rw [List.getD_eq_getElem?_getD, current, Option.getD_some]
  rw [dataSector, byte_cluster, element] at bound ⊢
  rw [clust2sect_inside start placed _ storage.layout _ cell,
    csect_place start placed file storage.layout, dword_sum_small _ _ (by omega)]
  exact ⟨by omega, rfl⟩

omit placed in
/-- A file whose volume has only changed in its FAT, and whose current cluster is another. Its
buffer and its first cluster are as before. -/
theorem backed_calm (after : Volume) (clst : Nat) (calm : Calm start lost file.volume after)
    (backed : Backed start lost chain file) :
    Backed start lost chain ⟨after, { file.fp with clust := clst }⟩ :=
  ⟨backed.valid, backed.going, backed.started, backed.sized, backed.filled,
    data_coherent start lost chain file after calm.data backed, backed.settled⟩

/-- What a pass of the loop of `f_read` leaves behind so many bytes. It is the invariant of the
loop. -/
structure Passed (count : Nat) (after : OpenFile) : Prop where
  served : Served start lost front back file after chain
  tracks : Tracks start lost chain after
  pointer : after.fp.fptr = file.fp.fptr + count
  same : SameFile file.fp after.fp
  seen : ∀ number, Available start lost number →
    after.cache.view number = file.cache.view number
  calmer : after.fp.faDirty = true → file.fp.faDirty = true

/-- Bytes that are seen as before. They lie in sectors of the file, which are available. -/
theorem seen_byte (after : OpenFile)
    (storage : Storage start lost (front ++ chain :: back) file.volume)
    (seen : ∀ number, Available start lost number →
      after.cache.view number = file.cache.view number)
    (index : Nat) (inside : index < clusterSize start * chain.length) :
    after.byte start chain index = file.byte start chain index := by
  obtain ⟨_, inRange, kept, _⟩ := storage_cells start lost front back chain _ storage
  rw [OpenFile.byte, OpenFile.byte, element, element,
    seen _ (data_sector_available start placed chain
    inRange _ (byte_block start chain index inside) lost kept)]

/-- Every piece of a file is seen as before, if its sectors are. It is made of such bytes. -/
theorem seen_piece (after : OpenFile)
    (storage : Storage start lost (front ++ chain :: back) file.volume)
    (seen : ∀ number, Available start lost number →
      after.cache.view number = file.cache.view number)
    (first count : Nat) (inside : first + count ≤ clusterSize start * chain.length) :
    piece (after.byte start chain) first count = piece (file.byte start chain) first count :=
  piece_congr _ _ _ _ (fun index _ below => seen_byte start placed lost front back chain file after
    storage seen index (by omega))

/-- The buffer takes a block of the file that it does not hold. What it held is written back
first, if it was changed. -/
theorem exchange_buf_serves (storage : Storage start lost (front ++ chain :: back) file.volume)
    (backed : Backed start lost chain file) (index : Nat)
    (inside : index < start.csize * chain.length)
    (apart : file.fp.dsect ≠ dataSector start chain index) :
    ∃ after, file.exchangeBuf (dataSector start chain index) = (.ok, after) ∧
      Served start lost front back file after chain ∧
      after.fp = { file.fp with
        faDirty := false, dsect := dataSector start chain index, buf := after.fp.buf } ∧
      ∀ number, after.cache.view number = file.cache.view number := by
  obtain ⟨_, inRange, kept, _⟩ := storage_cells start lost front back chain _ storage
  have owned := (data_sector_owned start placed chain inRange _ inside).1
  have available := data_sector_available start placed chain inRange _ inside lost kept
  obtain ⟨volume, exchanged, newStorage, fetched, length, others, outside⟩ :=
    exchange_buf_fetches start lost _ chain file placed storage backed _ available apart
  refine ⟨_, exchanged, ⟨newStorage, ⟨backed.valid, backed.going, backed.started, backed.sized,
    length,
    fetched ▸ fetch_coherent noCopies file.cache separate_none backed.coherent _,
    Or.inr available⟩, fun number _ _ apart => others number apart, Or.inr owned,
    fun number beside => outside number beside.2⟩, rfl, fun number => ?_⟩
  rw [fetched]
  exact fetch_view noCopies file.cache backed.coherent _ number (primary_none number)

/-- A pass from the start of a sector on delivers bytes of the file. It takes whole sectors past
the buffer if there are any, or a part of one from it. -/
theorem read_sector_piece (storage : Storage start lost (front ++ chain :: back) file.volume)
    (backed : Backed start lost chain file) (btr : Nat) (more : 0 < btr)
    (boundary : file.fp.fptr % sectorSize = 0)
    (inside : file.fp.fptr + btr ≤ clusterSize start * chain.length)
    (current : chain[file.fp.fptr / clusterSize start]? = some file.fp.clust) :
    ∃ count after, file.readSector btr =
        (.ok, piece (file.byte start chain) file.fp.fptr count, after) ∧
      0 < count ∧ count ≤ btr ∧
      Passed start lost front back chain file count (after.advance count) := by
  obtain ⟨_, inRange, kept, _⟩ := storage_cells start lost front back chain _ storage
  have there : file.fp.fptr < clusterSize start * chain.length := by omega
  have block := byte_block start chain file.fp.fptr there
  have owned := (data_sector_owned start placed chain inRange _ block).1
  have available := data_sector_available start placed chain inRange _ block lost kept
  have aligned : sectorSize * (file.fp.fptr / sectorSize) = file.fp.fptr :=
    Nat.mul_div_cancel' (Nat.dvd_of_mod_eq_zero boundary)
  obtain ⟨known, sect⟩ := current_sector start placed lost front back chain file storage current
    there
  rw [OpenFile.readSector, sect]
  dsimp only
  rw [if_neg known]
  by_cases direct : btr / sectorSize ≠ 0
  · obtain ⟨nonzero, few, together⟩ := contiguous_bounds start placed file storage.layout btr direct
    obtain ⟨position, read⟩ :=
      read_direct_piece start placed lost front back chain file storage backed
      (file.fp.fptr / sectorSize) (file.contiguous btr) nonzero together block
    have size := Nat.mul_le_mul_left sectorSize few
    have less := Nat.mul_div_le btr sectorSize
    have readStorage := storage_read start lost _ _ position storage
    have bytes := Nat.mul_le_mul_left sectorSize together
    rw [Nat.mul_add, Nat.mul_comm sectorSize start.csize, ← clusterSize] at bytes
    obtain ⟨tracks, pointer⟩ := advance_tracks start lost front back chain
      ⟨_, file.fp⟩ readStorage placed ⟨backed.valid, backed.going, backed.started, backed.sized,
        backed.filled, backed.coherent, backed.settled⟩ (sectorSize * file.contiguous btr)
      (Nat.mul_pos (by decide) nonzero) there (by
        rw [clusterSize, Nat.mul_comm start.csize, Nat.mod_mul, boundary, Nat.zero_add]
        rw [Nat.mul_comm sectorSize start.csize, ← clusterSize]
        exact bytes) current (fun off => absurd (by
          rw [← aligned, ← Nat.mul_add]
          exact Nat.mul_mod_right _ _) off)
    rw [if_pos direct, read, aligned]
    exact ⟨_, _, rfl, Nat.mul_pos (by decide) nonzero, by omega,
      served_calm start lost front back file _ chain readStorage tracks.backed
        ⟨fun _ _ => rfl, fun _ _ => rfl⟩ rfl, tracks, pointer, rfl, fun _ _ => rfl, id⟩
  · rw [if_neg direct]
    by_cases cached : file.fp.dsect = dataSector start chain (file.fp.fptr / sectorSize)
    · obtain ⟨count, data, nonzero, few, tracks, pointer⟩ :=
        read_buf_step start placed lost front back
        chain file storage backed btr more there current cached
      rw [if_neg (not_not_intro cached), data]
      exact ⟨count, file, rfl, nonzero, few, served_calm start lost front back file _ chain storage
        tracks.backed (calm_refl ..) rfl, tracks, pointer, rfl, fun _ _ => rfl, id⟩
    · obtain ⟨loaded, exchanged, served, object, seen⟩ :=
        exchange_buf_serves start placed lost front back
        chain file storage backed _ block cached
      have pointer : loaded.fp.fptr = file.fp.fptr := by rw [object]
      obtain ⟨count, data, nonzero, few, tracks, reached⟩ :=
        read_buf_step start placed lost front back
        chain loaded served.storage served.backed btr more (by rw [pointer]; exact there)
        (by rw [object]; exact current) (by rw [object])
      have same := seen_piece start placed lost front back chain file loaded storage
        (fun number _ => seen number) file.fp.fptr count (by omega)
      rw [if_pos cached, exchanged]
      dsimp only
      rw [data, pointer, same]
      refine ⟨count, _, rfl, nonzero, few, ⟨served.storage, tracks.backed, served.others,
        served.place,
        served.beside⟩, tracks, by rw [reached, pointer], ?_, fun number _ => seen number,
        fun dirty => ?_⟩
      · rw [SameFile, OpenFile.advance, object]
      · rw [OpenFile.advance, object] at dirty
        exact absurd dirty Bool.noConfusion

/-- A pass of the loop of `f_read` delivers bytes of the file. At least one byte is delivered, so
the loop comes to its end. -/
theorem read_step_piece (storage : Storage start lost (front ++ chain :: back) file.volume)
    (tracks : Tracks start lost chain file) (btr : Nat) (more : 0 < btr)
    (inside : file.fp.fptr + btr ≤ clusterSize start * chain.length) :
    ∃ count after, file.readStep btr =
        (.ok, piece (file.byte start chain) file.fp.fptr count, after) ∧
      0 < count ∧ count ≤ btr ∧
      Passed start lost front back chain file count (after.advance count) := by
  have backed := tracks.backed
  by_cases boundary : file.fp.fptr % sectorSize = 0
  · obtain ⟨volume, clst, followed, current, placedStorage, calm⟩ :=
      read_cluster_follows start placed lost front back chain file storage tracks boundary
      (by omega)
    have placedBacked := backed_calm start lost chain file volume clst calm backed
    have seen : ∀ number, Available start lost number →
        (OpenFile.cache ⟨volume, { file.fp with clust := clst }⟩).view number =
          file.cache.view number := data_view start lost file volume calm.data
    obtain ⟨count, after, read, nonzero, few, passed⟩ :=
      read_sector_piece start placed lost front back
      chain ⟨volume, { file.fp with clust := clst }⟩ placedStorage placedBacked btr more boundary
      inside current
    have same := seen_piece start placed lost front back chain file _ storage seen file.fp.fptr
      count
      (by omega)
    refine ⟨count, after, ?_, nonzero, few, ⟨passed.served.storage, passed.served.backed,
      fun number available apart other => ?_, passed.served.place, fun number beside => ?_⟩,
      passed.tracks, passed.pointer, passed.same, fun number available => ?_, passed.calmer⟩
    · rw [OpenFile.readStep, if_pos boundary, followed]
      dsimp only
      rw [read, same]
    · rw [passed.served.others number available apart other]
      exact calm.data number available
    · rw [passed.served.beside number beside]
      exact calm.others number beside
    · rw [passed.seen number available, seen number available]
  · have current := tracks.current
      (Nat.pos_of_ne_zero (fun isZero => boundary (by rw [isZero]; rfl)))
    have off : file.fp.fptr % clusterSize start ≠ 0 := by
      rw [clusterSize, Nat.mul_comm, Nat.mod_mul]
      omega
    rw [pred_div _ _ off] at current
    obtain ⟨count, data, nonzero, few, next, pointer⟩ :=
      read_buf_step start placed lost front back chain
      file storage backed btr more (by omega) current (tracks.held boundary)
    refine ⟨count, file, ?_, nonzero, few, served_calm start lost front back file _ chain storage
      next.backed (calm_refl ..) rfl, next, pointer, rfl, fun _ _ => rfl, id⟩
    rw [OpenFile.readStep, if_neg boundary, data]

omit placed in
/-- Steps on a file add up. The second may have stretched its chain. A step that stretches it
leaves the clusters it had. -/
theorem served_trans (middle after : OpenFile) (changed : List Nat)
    (first : Served start lost front back file middle chain)
    (second : Served start lost front back middle after changed)
    (more : ∀ number, Owns start chain number → Owns start changed number) :
    Served start lost front back file after changed := by
  refine ⟨second.storage, second.backed, fun number available apart other => ?_, ?_,
    fun number beside => (second.beside number beside).trans (first.beside number beside)⟩
  · have away : number ≠ middle.fp.dsect := by
      rcases first.place with same | owned
      · rw [same]
        exact other
      · intro same
        exact apart (more number (same ▸ owned))
    rw [second.others number available apart away,
      first.others number available (fun owned => apart (more number owned)) other]
  · rcases second.place with same | owned
    · rw [same]
      exact first.place.imp_right (more _)
    · exact Or.inr owned

omit placed in
/-- Passes of the loop behind each other are passes with the sum of their counts. The first pass
begins where the call began. -/
theorem passed_trans (middle after : OpenFile) (count more : Nat)
    (first : Passed start lost front back chain file count middle)
    (second : Passed start lost front back chain middle more after) :
    Passed start lost front back chain file (count + more) after where
  served := served_trans start lost front back chain file middle after chain first.served
    second.served (fun _ owned => owned)
  tracks := second.tracks
  pointer := by rw [second.pointer, first.pointer, Nat.add_assoc]
  same := by rw [SameFile, second.same, first.same]
  seen := fun number available =>
    (second.seen number available).trans (first.seen number available)
  calmer := fun dirty => first.calmer (second.calmer dirty)

/-- The loop of `f_read` delivers the bytes that are asked for. Proof: by induction on the fuel,
with one pass in front of the rest. -/
theorem read_loop_piece (fuel btr : Nat) (done : List u8)
    (storage : Storage start lost (front ++ chain :: back) file.volume)
    (tracks : Tracks start lost chain file)
    (inside : file.fp.fptr + btr ≤ clusterSize start * chain.length) (enough : btr < fuel) :
    ∃ after, file.readLoop fuel btr done =
        .ok (.ok, done ++ piece (file.byte start chain) file.fp.fptr btr, after) ∧
      Passed start lost front back chain file btr after := by
  induction fuel generalizing file btr done with
  | zero => exact absurd enough (Nat.not_lt_zero _)
  | succ fuel inductionHypothesis =>
    rw [OpenFile.readLoop]
    by_cases finished : btr = 0
    · subst finished
      exact ⟨file, by rw [if_pos rfl]; simp [piece], served_calm start lost front back file _ chain
        storage tracks.backed (calm_refl ..) rfl, tracks, rfl, rfl, fun _ _ => rfl, id⟩
    · obtain ⟨count, middle, read, nonzero, few, passed⟩ :=
        read_step_piece start placed lost front back
        chain file storage tracks btr (Nat.pos_of_ne_zero finished) inside
      obtain ⟨after, ran, rest⟩ := inductionHypothesis (middle.advance count) (btr - count)
        (done ++ piece (file.byte start chain) file.fp.fptr count) passed.served.storage
        passed.tracks (by rw [passed.pointer]; omega) (by omega)
      have same := seen_piece start placed lost front back chain file _ storage passed.seen
        (file.fp.fptr + count) (btr - count) (by omega)
      have total : count + (btr - count) = btr := Nat.add_sub_cancel' few
      refine ⟨after, ?_, total ▸ passed_trans start lost front back chain file _ after count _
        passed
        rest⟩
      rw [if_neg finished, read]
      dsimp only
      rw [piece_length, ran, passed.pointer, same, List.append_assoc, piece_append, total]

omit placed in
/-- An open file of a mounted volume is valid. The number of the mount is the one that the file
object holds. -/
theorem validate_ok (storage : Storage start lost (front ++ chain :: back) file.volume)
    (backed : Backed start lost chain file) :
    validate file.volume.fs file.fp.id = .ok := by
  have sameId : file.volume.fs.id = file.fp.id := by
    rw [storage.layout]
    exact backed.valid
  rw [validate, if_neg]
  rintro (unmounted | other)
  · exact storage.consistent.mounted.known unmounted
  · exact other sameId

/-- `f_read` delivers the bytes from the pointer on, up to the end of the file. The pointer stands
behind them. -/
theorem f_read_piece (storage : Storage start lost (front ++ chain :: back) file.volume)
    (tracks : Tracks start lost chain file) (readable : file.fp.faRead = true)
    (reached : file.fp.fptr ≤ file.fp.fsize) (btr : Nat) :
    ∃ after, fRead file btr = .ok (.ok, piece (file.byte start chain) file.fp.fptr
        (min btr (file.fp.fsize - file.fp.fptr)), after) ∧
      Passed start lost front back chain file (min btr (file.fp.fsize - file.fp.fptr)) after := by
  have sized := tracks.backed.sized
  have bytes := chain_bytes start lost front back chain placed file.volume storage
  have disk : diskSize < 2 ^ 32 := by decide
  have remain := dword_diff_small file.fp.fsize file.fp.fptr (by omega) reached
  have clipped : (if btr > file.fp.fsize - file.fp.fptr then file.fp.fsize - file.fp.fptr else btr)
    =
      min btr (file.fp.fsize - file.fp.fptr) := by
    split <;> omega
  obtain ⟨after, ran, passed⟩ := read_loop_piece start placed lost front back chain file
    (min btr (file.fp.fsize - file.fp.fptr) + 1) (min btr (file.fp.fsize - file.fp.fptr)) [] storage
    tracks (by omega) (by omega)
  refine ⟨after, ?_, passed⟩
  rw [fRead, validate_ok start lost front back chain file storage tracks.backed]
  dsimp only
  rw [if_neg (by simp [tracks.backed.going]), if_neg (by simp [readable]), remain, clipped, ran,
    List.nil_append]

end Reads

end EffiLib.FatFs
