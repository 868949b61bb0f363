import EffiLib.FatFs.FileReads

/-!
# Writing a file

`f_write` puts bytes over those of the file from its pointer on, and stretches the chain where
the file ends. It writes all of them unless no cluster is left, and then as many as there is
room for. Whole sectors go to the disk and the others into the buffer. No other file changes.
-/

namespace EffiLib.FatFs

open Buffers Sectors BlockCache PlacedBytes ChainTable

/-- The clusters that a file may own beside some others. Lost clusters count as taken. -/
def clustersFor (start : FATFS) (lost : List Nat) (others : List (List Nat)) : Nat :=
  start.nFatent - 2 - (lost.filter (fun clst => 2 ≤ clst ∧ clst < start.nFatent)).length -
    others.flatten.length

/-- The file object but for its pointer, its clusters and its buffer. The size is set behind the
loop only. -/
def SameWrite (fp after : FIL) : Prop :=
  after = { fp with
    fptr := after.fptr, sclust := after.sclust, clust := after.clust, dsect := after.dsect,
    buf := after.buf, faDirty := after.faDirty }

section Writes

variable (start : FATFS) (lost : List Nat) (front back : List (List Nat)) (chain : List Nat)
  (file : OpenFile)

/-- A file owns what is not free of the clusters that it may own. Every cluster is free, lost, or
owned by one file. -/
theorem storage_count (volume : Volume)
    (storage : Storage start lost (front ++ chain :: back) volume) :
    (freeCells volume.link 2 start.nFatent).card + chain.length =
      clustersFor start lost (front ++ back) := by
  have count : volume.fs.nFatent = start.nFatent := by rw [storage.layout]
  have holds := storage.consistent.holds
  rw [count] at holds
  have total := holds_count _ _ _ _ _ holds
  rw [clustersFor]
  simp only [List.flatten_append, List.flatten_cons, List.length_append] at total ⊢
  omega

/-- A file owns no more clusters than it may own. Those that are free are left to it. -/
theorem storage_few (volume : Volume)
    (storage : Storage start lost (front ++ chain :: back) volume) :
    chain.length ≤ clustersFor start lost (front ++ back) := by
  have count := storage_count start lost front back chain volume storage
  omega

/-- On a full volume a file owns all the clusters that it may own. None is free. -/
theorem storage_full (volume : Volume)
    (storage : Storage start lost (front ++ chain :: back) volume)
    (full : ∀ clst, InRange volume.fs clst → volume.link clst ≠ 0) :
    chain.length = clustersFor start lost (front ++ back) := by
  have count : volume.fs.nFatent = start.nFatent := by rw [storage.layout]
  have isEmpty : freeCells volume.link 2 start.nFatent = ∅ := by
    refine Finset.filter_eq_empty_iff.mpr (fun clst member => ?_)
    have bounds := Finset.mem_Ico.mp member
    exact full clst ⟨bounds.1, by rw [count]; exact bounds.2⟩
  have total := storage_count start lost front back chain volume storage
  rwa [isEmpty, Finset.card_empty, Nat.zero_add] at total

/-- A chain around one of its clusters. What is behind it belongs to the bytes behind. -/
theorem chain_split (index clst : Nat) (here : chain[index]? = some clst) :
    chain = chain.take index ++ clst :: chain.drop (index + 1) := by
  obtain ⟨inside, isClst⟩ := List.getElem?_eq_some_iff.mp here
  rw [← isClst, ← List.drop_eq_getElem_cons inside, List.take_append_drop]

/-- Behind a cluster of a file the next one is found, or a free one is linked to the last, or the
volume is full. -/
theorem create_chain_next (placed : DataPlaced start) (index clst : Nat)
    (storage : Storage start lost (front ++ chain :: back) file.volume)
    (here : chain[index]? = some clst) :
    (∃ volume, createChain file.volume clst = .ok (0, volume) ∧
      Storage start lost (front ++ chain :: back) volume ∧ Calm start lost file.volume volume ∧
      chain.length = index + 1 ∧ chain.length = clustersFor start lost (front ++ back)) ∨
    ∃ volume next more, createChain file.volume clst = .ok (next, volume) ∧
      InRange start next ∧ Storage start lost (front ++ (chain ++ more) :: back) volume ∧
      Calm start lost file.volume volume ∧ (chain ++ more)[index + 1]? = some next ∧
      (more = [] ∨ more = [next] ∧ chain.length = index + 1) := by
  have consistent := storage.consistent
  have count : file.volume.fs.nFatent = start.nFatent := by rw [storage.layout]
  obtain ⟨_, inRange, _, _⟩ := storage_cells start lost front back chain _ storage
  have split := chain_split chain index clst here
  obtain ⟨inside, _⟩ := List.getElem?_eq_some_iff.mp here
  cases behind : chain[index + 1]? with
  | some next =>
    have nextSplit := chain_split chain (index + 1) next behind
    have around : chain = chain.take index ++ clst :: next :: chain.drop (index + 2) := by
      obtain ⟨nextInside, isNext⟩ := List.getElem?_eq_some_iff.mp behind
      rw [← isNext, ← List.drop_eq_getElem_cons nextInside]
      exact split
    obtain ⟨after, created, same⟩ := create_chain_follows file.volume lost front back
      (chain.take index) (chain.drop (index + 2)) clst next (around ▸ consistent)
    obtain ⟨kept, calm⟩ := relinked_storage start lost placed _ file.volume after storage same
    refine Or.inr ⟨after, next, [], created, inRange next (List.mem_of_getElem? behind), ?_, calm,
      ?_,
      Or.inl rfl⟩
    · rw [List.append_nil]
      exact kept
    · rw [List.append_nil]
      exact behind
  | none =>
    have last : chain.length = index + 1 := by
      have short := List.getElem?_eq_none_iff.mp behind
      omega
    have ended : chain = chain.take index ++ [clst] := by
      rw [List.drop_eq_nil_of_le last.le] at split
      exact split
    obtain ⟨reply, after, created, kept, result⟩ := create_chain_stretch file.volume lost front back
      (chain.take index) clst (ended ▸ consistent)
    rcases result with ⟨rfl, full, still⟩ | ⟨replyRange, free, grown⟩
    · rw [← ended] at still
      obtain ⟨newStorage, calm⟩ := kept_storage start lost placed _ _ _ after storage kept still
      exact Or.inl ⟨after, created, newStorage, calm, last,
        storage_full start lost front back chain file.volume storage full⟩
    · have longer : chain.take index ++ [clst, reply] = chain ++ [reply] := by
        rw [List.append_cons, ← ended]
      rw [longer] at grown
      obtain ⟨newStorage, calm⟩ := kept_storage start lost placed _ _ _ after storage kept grown
      refine Or.inr ⟨after, reply, [reply], created, ⟨replyRange.1, count ▸ replyRange.2⟩,
        newStorage,
        calm, ?_, Or.inr ⟨rfl, last⟩⟩
      rw [← last, List.getElem?_concat_length]

/-- A file without clusters gets a free one, or the volume is full. Its first cluster is put into
the object. -/
theorem create_chain_first (placed : DataPlaced start)
    (storage : Storage start lost (front ++ [] :: back) file.volume) :
    (∃ volume, createChain file.volume 0 = .ok (0, volume) ∧
      Storage start lost (front ++ [] :: back) volume ∧ Calm start lost file.volume volume ∧
      clustersFor start lost (front ++ back) = 0) ∨
    ∃ volume next, createChain file.volume 0 = .ok (next, volume) ∧ InRange start next ∧
      Storage start lost (front ++ [next] :: back) volume ∧
      Calm start lost file.volume volume := by
  have count : file.volume.fs.nFatent = start.nFatent := by rw [storage.layout]
  obtain ⟨reply, after, created, kept, result⟩ := create_chain_start file.volume lost front back
    storage.consistent
  rcases result with ⟨rfl, full, still⟩ | ⟨replyRange, free, grown⟩
  · obtain ⟨newStorage, calm⟩ := kept_storage start lost placed _ _ _ after storage kept still
    exact Or.inl ⟨after, created, newStorage, calm,
      (storage_full start lost front back [] file.volume storage full).symm⟩
  · obtain ⟨newStorage, calm⟩ := kept_storage start lost placed _ _ _ after storage kept grown
    exact Or.inr ⟨after, reply, created, ⟨replyRange.1, count ▸ replyRange.2⟩, newStorage, calm⟩

/-- The cluster that begins at the pointer is found, or one is taken for it, or the volume is full
and the pointer is behind all clusters of the file. -/
theorem next_cluster_places (placed : DataPlaced start)
    (storage : Storage start lost (front ++ chain :: back) file.volume)
    (tracks : Tracks start lost chain file)
    (onCluster : file.fp.fptr % clusterSize start = 0) :
    (∃ volume, file.nextCluster = .ok (0, ⟨volume, file.fp⟩) ∧
      Storage start lost (front ++ chain :: back) volume ∧ Calm start lost file.volume volume ∧
      file.fp.fptr = clusterSize start * chain.length ∧
      chain.length = clustersFor start lost (front ++ back)) ∨
    ∃ volume clst more, file.nextCluster = .ok (clst, ⟨volume, { file.fp with
        sclust := (chain ++ more).headD 0 }⟩) ∧ InRange start clst ∧
      Storage start lost (front ++ (chain ++ more) :: back) volume ∧
      Calm start lost file.volume volume ∧
      (chain ++ more)[file.fp.fptr / clusterSize start]? = some clst ∧
      (more = [] ∨ more.length = 1 ∧ file.fp.fptr = clusterSize start * chain.length) := by
  have started := tracks.backed.started
  obtain ⟨_, inRange, _, _⟩ := storage_cells start lost front back chain _ storage
  by_cases top : file.fp.fptr = 0
  · cases chain with
    | nil =>
      have isZero : file.fp.sclust = 0 := started
      rcases create_chain_first start lost front back file placed storage with
        ⟨volume, created, newStorage, calm, room⟩ | ⟨volume, next, created, nextRange, newStorage,
        calm⟩
      · refine Or.inl ⟨volume, ?_, newStorage, calm, top, room.symm⟩
        have same : ({ file.fp with sclust := 0 } : FIL) = file.fp := by rw [← isZero]
        rw [OpenFile.nextCluster, if_pos top, if_pos isZero, created, ok_bind]
        dsimp only
        rw [same]
      · refine Or.inr ⟨volume, next, [next], ?_, nextRange, newStorage, calm, ?_, Or.inr ⟨rfl, top⟩⟩
        · rw [OpenFile.nextCluster, if_pos top, if_pos isZero, created, ok_bind]
          rfl
        · rw [top, Nat.zero_div]
          rfl
    | cons clst rest =>
      have head : file.fp.sclust = clst := started
      have cell := inRange clst List.mem_cons_self
      have above := cell.1
      refine Or.inr ⟨file.volume, clst, [], ?_, cell, ?_, calm_refl .., ?_, Or.inl rfl⟩
      · have same : ({ file.fp with sclust := (clst :: rest).headD 0 } : FIL) = file.fp := by
          rw [← started]
        rw [OpenFile.nextCluster, if_pos top, if_neg (by omega), List.append_nil, same, head]
      · rw [List.append_nil]
        exact storage
      · rw [top, Nat.zero_div]
        rfl
  · have current := tracks.current (Nat.pos_of_ne_zero top)
    have before := pred_div_boundary _ _ (Nat.pos_of_ne_zero top) onCluster
    have whole : clusterSize start * (file.fp.fptr / clusterSize start) = file.fp.fptr :=
      Nat.mul_div_cancel' (Nat.dvd_of_mod_eq_zero onCluster)
    rcases create_chain_next start lost front back chain file placed _ _ storage current with
      ⟨volume, created, newStorage, calm, last, room⟩ |
      ⟨volume, next, more, created, nextRange, newStorage, calm, here, grown⟩
    · refine Or.inl ⟨volume, ?_, newStorage, calm, ?_, room⟩
      · rw [OpenFile.nextCluster, if_neg top, created, ok_bind]
      · rw [last, ← before, whole]
    · refine Or.inr ⟨volume, next, more, ?_, nextRange, newStorage, calm, before ▸ here,
        grown.imp_right (fun both => ⟨by rw [both.1]; rfl, by rw [both.2, ← before, whole]⟩)⟩
      have same : file.fp.sclust = (chain ++ more).headD 0 := by
        rw [started]
        cases chain with
        | nil => exact absurd current (by simp)
        | cons clst rest => rfl
      rw [OpenFile.nextCluster, if_neg top, created, ok_bind, ← same]

/-- On a sector boundary the cluster of the pointer is found, or one is taken for it, or the volume
is full and the pointer is behind all clusters of the file. -/
theorem write_cluster_places (placed : DataPlaced start)
    (storage : Storage start lost (front ++ chain :: back) file.volume)
    (tracks : Tracks start lost chain file) (boundary : file.fp.fptr % sectorSize = 0) :
    (∃ volume, file.writeCluster = .ok (.full, ⟨volume, file.fp⟩) ∧
      Storage start lost (front ++ chain :: back) volume ∧ Calm start lost file.volume volume ∧
      file.fp.fptr = clusterSize start * chain.length ∧
      chain.length = clustersFor start lost (front ++ back)) ∨
    ∃ volume clst more, file.writeCluster = .ok (.wrote 0, ⟨volume, { file.fp with
        sclust := (chain ++ more).headD 0, clust := clst }⟩) ∧
      Storage start lost (front ++ (chain ++ more) :: back) volume ∧
      Calm start lost file.volume volume ∧
      (chain ++ more)[file.fp.fptr / clusterSize start]? = some clst ∧
      (more = [] ∨ more.length = 1 ∧ file.fp.fptr = clusterSize start * chain.length) := by
  have csect := csect_place start placed file storage.layout
  by_cases first : file.csect = 0
  · have onCluster : file.fp.fptr % clusterSize start = 0 := by
      rw [clusterSize, Nat.mul_comm, Nat.mod_mul, boundary, ← csect, first, Nat.mul_zero]
    rcases next_cluster_places start lost front back chain file placed storage tracks onCluster with
      ⟨volume, next, newStorage, calm, ended, room⟩ |
      ⟨volume, clst, more, next, clstRange, newStorage, calm, here, grown⟩
    · refine Or.inl ⟨volume, ?_, newStorage, calm, ended, room⟩
      rw [OpenFile.writeCluster, if_pos first, next, ok_bind]
      dsimp only
      rw [if_pos rfl]
    · have limited := storage.consistent.mounted.limited
      have count : file.volume.fs.nFatent = start.nFatent := by rw [storage.layout]
      have range := entry_range_small file.volume.fs.fsType
      rw [InRange] at clstRange
      refine Or.inr ⟨volume, clst, more, ?_, newStorage, calm, here, grown⟩
      rw [OpenFile.writeCluster, if_pos first, next, ok_bind]
      dsimp only
      rw [if_neg (by omega), if_neg (by omega), if_neg (by omega)]
  · have inCluster : file.fp.fptr % clusterSize start ≠ 0 := by
      rw [clusterSize, Nat.mul_comm, Nat.mod_mul, boundary, ← csect, Nat.zero_add]
      exact Nat.mul_ne_zero (by decide) first
    have nonzero : 0 < file.fp.fptr :=
      Nat.pos_of_ne_zero (fun isZero => inCluster (by rw [isZero, Nat.zero_mod]))
    have current := tracks.current nonzero
    rw [pred_div _ _ inCluster] at current
    refine Or.inr ⟨file.volume, file.fp.clust, [], ?_, ?_, calm_refl .., ?_, Or.inl rfl⟩
    · rw [OpenFile.writeCluster, if_neg first, List.append_nil, ← tracks.backed.started]
    · rw [List.append_nil]
      exact storage
    · rw [List.append_nil]
      exact current

/-- What the loop of `f_write` leaves behind writing some bytes. It is the invariant of the
loop. -/
structure Wrote (data : List u8) (after : OpenFile) (changed : List Nat) : Prop where
  served : Served start lost front back file after changed
  tracks : Tracks start lost changed after
  pointer : after.fp.fptr = file.fp.fptr + data.length
  same : SameWrite file.fp after.fp
  bytes : ∀ index < max file.fp.fsize (file.fp.fptr + data.length),
    after.byte start changed index = overlay (file.byte start chain) file.fp.fptr data index

/-- What a file shows when its buffer was filled and made dirty for a sector. The sector that was
in the buffer is on the disk by then. -/
theorem dirtied_views (backed : Backed start lost chain file) (volume : Volume)
    (cached : volume.cache = file.volume.cache) (sect : Nat) (positive : 0 < sect)
    (buf : List u8) (clean : file.fp.faDirty = true → file.fp.dsect = sect) (number : Nat) :
    (OpenFile.cache ⟨volume, { file.fp with dsect := sect, buf, faDirty := true }⟩).view number =
      if number = sect then buf else file.cache.view number := by
  have held : (OpenFile.cache ⟨volume, { file.fp with
      dsect := sect, buf, faDirty := true }⟩).held = some sect :=
    if_neg (Nat.pos_iff_ne_zero.mp positive)
  rw [Cache.view, held, view_dirty start lost chain file backed]
  by_cases here : number = sect
  · rw [if_pos (by rw [here]), if_pos here]
    rfl
  · have dirtyApart : ¬ (file.fp.faDirty = true ∧ file.fp.dsect = number) :=
      fun both => here (both.2.symm.trans (clean both.1))
    rw [if_neg (fun same => here (Option.some.inj same).symm), if_neg here, if_neg dirtyApart]
    exact congrArg (fun cache => cache.store number) cached

/-- The bytes that the file has then. The buffer held its sector of the file, or the pointer is at
the end of the file and at the start of the sector, where the buffer may hold anything. -/
theorem buffer_overlaid (placed : DataPlaced start) (volume : Volume)
    (storage : Storage start lost (front ++ chain :: back) volume)
    (inside : file.fp.fptr < clusterSize start * chain.length) (after : OpenFile)
    (buffer data : List u8) (filled : buffer.length = sectorSize)
    (room : file.fp.fptr % sectorSize + data.length ≤ sectorSize)
    (views : ∀ number, after.cache.view number =
      if number = dataSector start chain (file.fp.fptr / sectorSize) then
        overwrite buffer (file.fp.fptr % sectorSize) data
      else file.cache.view number)
    (known : buffer = file.cache.view (dataSector start chain (file.fp.fptr / sectorSize)) ∨
      file.fp.fptr % sectorSize = 0 ∧ file.fp.fsize ≤ file.fp.fptr) (index : Nat)
    (within : index < clusterSize start * chain.length)
    (below : index < max file.fp.fsize (file.fp.fptr + data.length)) :
    after.byte start chain index = overlay (file.byte start chain) file.fp.fptr data index := by
  have size : 0 < sectorSize := by decide
  have parts := Nat.div_add_mod file.fp.fptr sectorSize
  obtain ⟨distinct, inRange, _, _⟩ := storage_cells start lost front back chain _ storage
  have block := byte_block start chain file.fp.fptr inside
  have indexBlock := byte_block start chain index within
  have shown := views (dataSector start chain (file.fp.fptr / sectorSize))
  rw [if_pos rfl] at shown
  have others : index / sectorSize ≠ file.fp.fptr / sectorSize →
      after.cache.view (dataSector start chain (index / sectorSize)) =
        file.cache.view (dataSector start chain (index / sectorSize)) := by
    intro different
    rw [views, if_neg (fun same => different ?_)]
    exact data_sector_injective start placed chain inRange _ indexBlock distinct _ block same
  rcases known with whole | ⟨boundary, ended⟩
  · have put := element_put sectorSize size
      (fun index => file.cache.view (dataSector start chain index))
      (fun index => after.cache.view (dataSector start chain index)) (file.fp.fptr / sectorSize)
      (file.fp.fptr % sectorSize) data (by rw [← whole, filled]) room (by rw [shown, ← whole]) index
      others
    rw [parts] at put
    exact put
  · have aligned : sectorSize * (file.fp.fptr / sectorSize) = file.fp.fptr := by omega
    have put := element_fresh sectorSize size
      (fun index => file.cache.view (dataSector start chain index))
      (fun index => after.cache.view (dataSector start chain index)) (file.fp.fptr / sectorSize)
      buffer data filled (by omega) (by rw [shown, boundary]) index others (by rw [aligned]; omega)
    rw [aligned] at put
    exact put

/-- Bytes that are put into the buffer, over what it holds of the file. The rest of the sector
stays as the file has it. -/
theorem write_buf_step (placed : DataPlaced start) (entered : OpenFile)
    (storage : Storage start lost (front ++ chain :: back) entered.volume)
    (backed : Backed start lost chain file)
    (current : chain[file.fp.fptr / clusterSize start]? = some file.fp.clust)
    (inside : file.fp.fptr < clusterSize start * chain.length)
    (cached : entered.volume.cache = file.volume.cache)
    (object : entered.fp = { file.fp with
      dsect := dataSector start chain (file.fp.fptr / sectorSize), buf := entered.fp.buf })
    (filled : entered.fp.buf.length = sectorSize)
    (clean : file.fp.faDirty = true →
      file.fp.dsect = dataSector start chain (file.fp.fptr / sectorSize))
    (known : entered.fp.buf =
        file.cache.view (dataSector start chain (file.fp.fptr / sectorSize)) ∨
      file.fp.fptr % sectorSize = 0 ∧ file.fp.fsize ≤ file.fp.fptr)
    (wbuff : List u8) (more : 0 < wbuff.length) :
    ∃ count after, entered.writeBuf wbuff = (.wrote count, after) ∧ 0 < count ∧
      count ≤ wbuff.length ∧
      Wrote start lost front back chain file (wbuff.take count) (after.advance count) chain := by
  have size : 0 < sectorSize := by decide
  have small := Nat.mod_lt file.fp.fptr size
  have parts := Nat.div_add_mod file.fp.fptr sectorSize
  obtain ⟨_, inRange, kept, _⟩ := storage_cells start lost front back chain _ storage
  have block := byte_block start chain file.fp.fptr inside
  have owned := (data_sector_owned start placed chain inRange _ block).1
  have available := data_sector_available start placed chain inRange _ block lost kept
  have positive := available_pos start lost _ placed _ storage _ available
  have pointer : entered.fp.fptr = file.fp.fptr := by rw [object]
  generalize countIs : min (sectorSize - file.fp.fptr % sectorSize) wbuff.length = count
  have nonzero : 0 < count := by omega
  have taken : (wbuff.take count).length = count := List.length_take_of_le (by omega)
  generalize bufIs : overwrite entered.fp.buf (file.fp.fptr % sectorSize) (wbuff.take count) = buf
  have bufFilled : buf.length = sectorSize := by
    rw [← bufIs, overwrite_length _ _ _ (by rw [taken, filled]; omega), filled]
  have views := dirtied_views start lost chain file backed entered.volume cached
    (dataSector start chain (file.fp.fptr / sectorSize)) positive buf clean
  generalize afterIs : (⟨entered.volume, { file.fp with
    dsect := dataSector start chain (file.fp.fptr / sectorSize), buf, faDirty := true }⟩ :
      OpenFile) = after at views
  have wrote : entered.writeBuf wbuff = (.wrote count, after) := by
    rw [OpenFile.writeBuf, pointer]
    dsimp only
    rw [countIs, bufIs, ← afterIs, object]
  have newBacked : Backed start lost chain after := by
    rw [← afterIs]
    exact ⟨backed.valid, backed.going, backed.started, backed.sized, bufFilled,
      ⟨fun _ _ isClean => absurd isClean Bool.noConfusion,
        fun _ => ⟨_, if_neg (Nat.pos_iff_ne_zero.mp positive), primary_none _⟩,
        fun _ _ _ member => absurd member List.not_mem_nil⟩, Or.inr available⟩
  -- The pointer stays in the sector, or comes to its end.
  have heldNext : (file.fp.fptr + count) % sectorSize ≠ 0 →
      (file.fp.fptr + count) / sectorSize = file.fp.fptr / sectorSize := by
    intro off
    have split : file.fp.fptr + count = sectorSize * (file.fp.fptr / sectorSize) +
        (file.fp.fptr % sectorSize + count) := by omega
    have early : file.fp.fptr % sectorSize + count < sectorSize := by
      refine Nat.lt_of_le_of_ne (by omega) (fun whole => off ?_)
      rw [split, whole, Nat.mul_add_mod, Nat.mod_self]
    rw [split, (index_block sectorSize size _ _ early).1]
  obtain ⟨tracks, reached⟩ := advance_tracks start lost front back chain after (afterIs ▸ storage)
    placed newBacked count nonzero (by rw [← afterIs]; exact inside)
    (by
      rw [← afterIs]
      exact sector_together start placed file.fp.fptr count (by omega))
    (by rw [← afterIs]; exact current) (fun off => by
      rw [← afterIs] at off ⊢
      dsimp only at off ⊢
      rw [heldNext off])
  refine ⟨count, after, wrote, nonzero, by omega, ⟨⟨afterIs ▸ storage, tracks.backed,
    fun number _ _ _ => ?_, Or.inr ?_, fun number _ => ?_⟩, tracks, ?_, ?_, fun index below => ?_⟩⟩
  · rw [← afterIs]
    exact congrArg (fun cache => cache.store number) cached
  · rw [← afterIs]
    exact owned
  · rw [← afterIs]
    exact congrArg (fun cache => cache.view number) cached
  · rw [reached, taken, ← afterIs]
  · rw [SameWrite, ← afterIs]
    rfl
  · have within := tracks.within
    have sized := backed.sized
    rw [reached, ← afterIs] at within
    dsimp only at within
    exact buffer_overlaid start lost front back chain file placed entered.volume storage inside
      after entered.fp.buf (wbuff.take count) filled (by rw [taken]; omega)
      (fun number => by rw [bufIs]; exact views number) known index (by rw [taken] at below; omega)
      below

/-- A direct write, when the disk has taken it. The buffer follows if its sector is one of those. -/
theorem write_direct_run (clean : file.fp.faDirty = false) (wbuff : List u8) (sect cc : Nat)
    (pDisk0 : Stream)
    (wrote : diskWrite file.volume.pDisk0 wbuff (UInt32.ofNat sect) (UInt8.ofNat cc)
      file.volume.beyond = (.ok, pDisk0)) :
    file.writeDirect wbuff sect cc = (.wrote (sectorSize * cc),
      ⟨{ file.volume with pDisk0 }, { file.fp with
        buf := if dwordDiff file.fp.dsect sect < cc then
          sector sectorSize wbuff (dwordDiff file.fp.dsect sect) else file.fp.buf }⟩) := by
  rw [OpenFile.writeDirect, wrote]
  dsimp only
  by_cases near : dwordDiff file.fp.dsect sect < cc
  · rw [if_pos near, if_pos near, ← clean]
  · rw [if_neg near, if_neg near]

/-- The buffer is again what the disk has in its sector. If its sector was written, the source
puts the new bytes into the buffer too. -/
theorem direct_settled (backed : Backed start lost chain file) (clean : file.fp.faDirty = false)
    (placed : DataPlaced start) (wbuff : List u8) (first cc : Nat)
    (few : sectorSize * cc ≤ wbuff.length) (inside : first + cc ≤ sectorCount)
    (store : Nat → List u8)
    (stored : ∀ number, store number =
      written sectorSize file.volume.cache.store first cc (wbuff.take (sectorSize * cc)) number)
    (buf : List u8) (bufIs : buf = if dwordDiff file.fp.dsect first < cc then
      sector sectorSize wbuff (dwordDiff file.fp.dsect first) else file.fp.buf) :
    buf.length = sectorSize ∧ (file.fp.dsect ≠ 0 → buf = store file.fp.dsect) := by
  have near := near_buffer start placed lost chain file backed first cc inside
  rw [bufIs]
  by_cases close : dwordDiff file.fp.dsect first < cc
  · have place := near.1 close
    have offset : file.fp.dsect - first = dwordDiff file.fp.dsect first := by omega
    have room : sectorSize * (dwordDiff file.fp.dsect first) + sectorSize ≤ wbuff.length :=
      (Nat.mul_le_mul_left sectorSize close).trans few
    rw [if_pos close]
    refine ⟨?_, fun _ => ?_⟩
    · rw [sector, List.length_take, List.length_drop]
      omega
    · rw [stored, written, if_pos (by omega), offset, sector_take sectorSize wbuff cc _ close]
  · rw [if_neg close]
    refine ⟨backed.filled, fun known => ?_⟩
    rw [stored, written, if_neg]
    · exact backed.coherent.clean file.fp.dsect (if_neg known) clean
    · rintro ⟨above, below⟩
      obtain ⟨place, here⟩ := Nat.exists_eq_add_of_le above
      exact close (by rw [near.2 place (by omega) here]; omega)

/-- A clean file over a changed disk, with a buffer that holds its sector of it. It is used behind
a write that goes to the disk directly. -/
theorem direct_backed (backed : Backed start lost chain file) (clean : file.fp.faDirty = false)
    (pDisk0 : Stream) (buf : List u8) (filled : buf.length = sectorSize)
    (settled : file.fp.dsect ≠ 0 → buf = sector sectorSize pDisk0.bytes file.fp.dsect) :
    Backed start lost chain ⟨{ file.volume with pDisk0 }, { file.fp with buf }⟩ := by
  refine ⟨backed.valid, backed.going, backed.started, backed.sized, filled,
    ⟨fun number held _ => ?_, fun dirty => absurd (clean.symm.trans dirty) Bool.noConfusion,
      fun _ _ _ member => absurd member List.not_mem_nil⟩, backed.settled⟩
  obtain ⟨shown, known⟩ := held_dsect _ number held
  rw [← shown]
  exact settled known

/-- The bytes of the file behind the write: what was written lies over those of before. Sectors of
other blocks are seen as before. -/
theorem direct_overlaid (placed : DataPlaced start)
    (storage : Storage start lost (front ++ chain :: back) file.volume)
    (backed : Backed start lost chain file) (clean : file.fp.faDirty = false)
    (boundary : file.fp.fptr % sectorSize = 0)
    (inside : file.fp.fptr < clusterSize start * chain.length) (cc : Nat) (data : List u8)
    (taken : data.length = sectorSize * cc)
    (together : file.fp.fptr / sectorSize % start.csize + cc ≤ start.csize) (after : OpenFile)
    (newBacked : Backed start lost chain after) (still : after.fp.faDirty = false)
    (store : ∀ number, after.volume.cache.store number =
      written sectorSize file.volume.cache.store
        (dataSector start chain (file.fp.fptr / sectorSize)) cc data number)
    (index : Nat) (within : index < clusterSize start * chain.length) :
    after.byte start chain index = overlay (file.byte start chain) file.fp.fptr data index := by
  obtain ⟨distinct, inRange, _, _⟩ := storage_cells start lost front back chain _ storage
  have aligned : sectorSize * (file.fp.fptr / sectorSize) = file.fp.fptr :=
    Nat.mul_div_cancel' (Nat.dvd_of_mod_eq_zero boundary)
  have block := byte_block start chain file.fp.fptr inside
  have indexBlock := byte_block start chain index within
  have next := sectors_together start placed lost front back chain _ storage _ cc together block
  have put := element_blocks sectorSize (by decide)
    (fun index => file.cache.view (dataSector start chain index))
    (fun index => after.cache.view (dataSector start chain index)) (file.fp.fptr / sectorSize) cc
    data taken index ?_
  · rw [aligned] at put
    exact put
  · have isClean : ¬ (after.fp.faDirty = true ∧
        after.fp.dsect = dataSector start chain (index / sectorSize)) := by simp [still]
    have wasClean : ¬ (file.fp.faDirty = true ∧
        file.fp.dsect = dataSector start chain (index / sectorSize)) := by simp [clean]
    rw [view_dirty start lost chain after newBacked, if_neg isClean, store, written, written,
      view_dirty start lost chain file backed, if_neg wasClean]
    by_cases among : file.fp.fptr / sectorSize ≤ index / sectorSize ∧
        index / sectorSize < file.fp.fptr / sectorSize + cc
    · obtain ⟨place, here⟩ := Nat.exists_eq_add_of_le among.1
      have isNext := (next place (by omega)).1
      rw [if_pos among, here, isNext, if_pos (by omega), Nat.add_sub_cancel_left,
        Nat.add_sub_cancel_left]
    · rw [if_neg among, if_neg]
      rintro ⟨above, below⟩
      obtain ⟨place, here⟩ := Nat.exists_eq_add_of_le above
      have isNext := (next place (by omega)).1
      rw [← here] at isNext
      have same := data_sector_injective start placed chain inRange _
        (sectors_inside start chain placed _ cc together block place (by omega)) distinct _
        indexBlock isNext
      exact among (by omega)

/-- Whole sectors that are written past the buffer. The buffer is written back in front of it, so
it is clean. -/
theorem write_direct_step (placed : DataPlaced start)
    (storage : Storage start lost (front ++ chain :: back) file.volume)
    (backed : Backed start lost chain file) (clean : file.fp.faDirty = false)
    (boundary : file.fp.fptr % sectorSize = 0)
    (current : chain[file.fp.fptr / clusterSize start]? = some file.fp.clust)
    (inside : file.fp.fptr < clusterSize start * chain.length) (wbuff : List u8) (cc : Nat)
    (nonzero : 0 < cc) (few : sectorSize * cc ≤ wbuff.length)
    (together : file.fp.fptr / sectorSize % start.csize + cc ≤ start.csize) :
    ∃ after, file.writeDirect wbuff (dataSector start chain (file.fp.fptr / sectorSize)) cc =
        (.wrote (sectorSize * cc), after) ∧
      Wrote start lost front back chain file (wbuff.take (sectorSize * cc))
        (after.advance (sectorSize * cc)) chain := by
  have size : 0 < sectorSize := by decide
  have sectors : sectorCount = 10240 := rfl
  have bounds := csize_bounds start placed
  have block := byte_block start chain file.fp.fptr inside
  have aligned : sectorSize * (file.fp.fptr / sectorSize) = file.fp.fptr :=
    Nat.mul_div_cancel' (Nat.dvd_of_mod_eq_zero boundary)
  have next := sectors_together start placed lost front back chain _ storage _ cc together block
  have taken : (wbuff.take (sectorSize * cc)).length = sectorSize * cc :=
    List.length_take_of_le few
  have last := available_inside start placed lost _ (next (cc - 1) (by omega)).2.2
  obtain ⟨pDisk0, wrote, complete, stored⟩ := disk_write_sectors file.volume.pDisk0 wbuff
    (dataSector start chain (file.fp.fptr / sectorSize)) cc file.volume.beyond
    storage.consistent.mounted.sound.complete (by omega) few (by omega)
  have outside : ∀ number, ¬ Available start lost number →
      sector sectorSize pDisk0.bytes number = file.volume.cache.store number := by
    intro number away
    rw [stored, written, if_neg]
    · rfl
    · rintro ⟨above, below⟩
      obtain ⟨place, rfl⟩ := Nat.exists_eq_add_of_le above
      exact away (next place (by omega)).2.2
  have newStorage := storage_written start lost placed _ file.volume pDisk0 storage complete outside
  have ran := write_direct_run file clean wbuff _ cc pDisk0 wrote
  generalize bufIs : (if dwordDiff file.fp.dsect
      (dataSector start chain (file.fp.fptr / sectorSize)) < cc then
    sector sectorSize wbuff (dwordDiff file.fp.dsect
      (dataSector start chain (file.fp.fptr / sectorSize))) else file.fp.buf) = buf at ran
  obtain ⟨filled, settled⟩ := direct_settled start lost chain file backed clean placed wbuff _ cc
    few (by omega) _ stored buf bufIs.symm
  have newBacked := direct_backed start lost chain file backed clean pDisk0 buf filled settled
  have bytes := Nat.mul_le_mul_left sectorSize together
  rw [Nat.mul_add, Nat.mul_comm sectorSize start.csize, ← clusterSize] at bytes
  obtain ⟨tracks, reached⟩ := advance_tracks start lost front back chain _ newStorage placed
    newBacked (sectorSize * cc) (Nat.mul_pos size nonzero) inside
    (by
      dsimp only
      rw [clusterSize, Nat.mul_comm start.csize, Nat.mod_mul, boundary, Nat.zero_add,
        Nat.mul_comm sectorSize start.csize, ← clusterSize]
      exact bytes)
    current (fun off => absurd (by
      dsimp only
      rw [← aligned, ← Nat.mul_add]
      exact Nat.mul_mod_right _ _) off)
  refine ⟨_, ran, ⟨newStorage, tracks.backed, fun number _ apart _ => ?_, Or.inl rfl,
    fun number beside => ?_⟩, tracks, ?_, rfl, fun index below => ?_⟩
  · refine (stored number).trans (if_neg ?_)
    rintro ⟨above, below⟩
    obtain ⟨place, rfl⟩ := Nat.exists_eq_add_of_le above
    exact apart (next place (by omega)).2.1
  · exact written_view start lost file.volume pDisk0 outside number beside.2
  · rw [reached, taken]
  · have within := tracks.within
    have sized := backed.sized
    rw [reached] at within
    rw [taken] at below
    dsimp only at within
    exact direct_overlaid start lost front back chain file placed storage backed clean boundary
      inside cc _ taken together _ newBacked clean stored index (by omega)

/-- The bytes of a file with more clusters, which are seen as before. New clusters change no byte
of the old ones. -/
theorem grown_byte (placed : DataPlaced start) (after : OpenFile) (more : List Nat)
    (storage : Storage start lost (front ++ chain :: back) file.volume)
    (seen : ∀ number, Available start lost number →
      after.cache.view number = file.cache.view number) (index : Nat)
    (inside : index < clusterSize start * chain.length) :
    after.byte start (chain ++ more) index = file.byte start chain index := by
  have block := byte_block start chain index inside
  rw [OpenFile.byte, element, data_sector_append start chain more _ block]
  exact seen_byte start placed lost front back chain file after storage seen index inside

/-- A step that is not seen, in front of a write. It may have stretched the chain or exchanged the
buffer. -/
theorem wrote_behind (placed : DataPlaced start) (middle after : OpenFile)
    (grown more changed : List Nat) (data : List u8)
    (storage : Storage start lost (front ++ chain :: back) file.volume)
    (isGrown : grown = chain ++ more) (first : Served start lost front back file middle grown)
    (pointer : middle.fp.fptr = file.fp.fptr) (same : SameWrite file.fp middle.fp)
    (seen : ∀ number, Available start lost number →
      middle.cache.view number = file.cache.view number)
    (reached : file.fp.fptr ≤ clusterSize start * chain.length)
    (sized : file.fp.fsize ≤ clusterSize start * chain.length)
    (second : Wrote start lost front back grown middle data after changed)
    (kept : ∀ number, Owns start grown number → Owns start changed number) :
    Wrote start lost front back chain file data after changed where
  served := served_trans start lost front back grown file middle after changed first second.served
    kept
  tracks := second.tracks
  pointer := by rw [second.pointer, pointer]
  same := by rw [SameWrite, second.same, same]
  bytes := by
    intro index below
    have size : middle.fp.fsize = file.fp.fsize := by rw [same]
    rw [second.bytes index (by rw [size, pointer]; exact below), pointer, overlay, overlay]
    split
    · rfl
    · rw [isGrown]
      exact grown_byte start lost front back chain file placed middle more storage seen index
        (by omega)

/-- Entering a sector loads it, or keeps what is behind the end of the file out of sight. A sector
behind the end need not be read before it is written. -/
theorem enter_sector_step (storage : Storage start lost (front ++ chain :: back) file.volume)
    (backed : Backed start lost chain file) (clean : file.fp.faDirty = false) (sect : Nat)
    (boundary : file.fp.fptr % sectorSize = 0) (inside : sect < sectorCount) (nonzero : 0 < sect) :
    ∃ entered, file.enterSector sect = (.ok, entered) ∧
      Storage start lost (front ++ chain :: back) entered.volume ∧
      entered.volume.cache = file.volume.cache ∧
      entered.fp = { file.fp with dsect := sect, buf := entered.fp.buf } ∧
      entered.fp.buf.length = sectorSize ∧
      (entered.fp.buf = file.cache.view sect ∨
        file.fp.fptr % sectorSize = 0 ∧ file.fp.fsize ≤ file.fp.fptr) := by
  have view := view_dirty start lost chain file backed sect
  rw [if_neg (by simp [clean])] at view
  by_cases loads : file.fp.dsect ≠ sect ∧ file.fp.fptr < file.fp.fsize
  · obtain ⟨position, read, length⟩ :=
      fill_buf_reads start lost _ file storage backed.filled sect inside
    refine ⟨⟨{ file.volume with pDisk0 := ⟨file.volume.pDisk0.bytes, position⟩ },
      { file.fp with dsect := sect, buf := file.volume.cache.store sect }⟩, ?_,
      storage_read start lost _ _ position storage, rfl, rfl, length, Or.inl view.symm⟩
    rw [OpenFile.enterSector, if_pos loads, read]
  · refine ⟨{ file with fp := { file.fp with dsect :=
      sect } }, ?_, storage, rfl, rfl, backed.filled,
      ?_⟩
    · rw [OpenFile.enterSector, if_neg loads]
    · by_cases here : file.fp.dsect = sect
      · refine Or.inl ?_
        rw [Cache.view, ← here]
        exact (if_pos (if_neg (by omega))).symm
      · exact Or.inr ⟨boundary, Nat.le_of_not_lt (fun early => loads ⟨here, early⟩)⟩

/-- A pass from the start of a sector on writes some bytes. It takes whole sectors past the buffer
if there are any, or a part of one into it. -/
theorem write_sector_step (placed : DataPlaced start)
    (storage : Storage start lost (front ++ chain :: back) file.volume)
    (backed : Backed start lost chain file) (boundary : file.fp.fptr % sectorSize = 0)
    (current : chain[file.fp.fptr / clusterSize start]? = some file.fp.clust)
    (inside : file.fp.fptr < clusterSize start * chain.length) (wbuff : List u8)
    (more : 0 < wbuff.length) :
    ∃ count after, file.writeSector wbuff = (.wrote count, after) ∧ 0 < count ∧
      count ≤ wbuff.length ∧
      Wrote start lost front back chain file (wbuff.take count) (after.advance count) chain := by
  obtain ⟨pDisk0, wrote, newStorage, flushed, outside⟩ :=
    write_back_buf_flushes start lost _ chain file placed storage backed
  generalize middleIs : (⟨{ file.volume with pDisk0 }, { file.fp with faDirty := false }⟩ :
    OpenFile) = middle at wrote flushed
  have volume : middle.volume = { file.volume with pDisk0 } := by rw [← middleIs]
  have object : middle.fp = { file.fp with faDirty := false } := by rw [← middleIs]
  rw [← volume] at newStorage
  have pointer : middle.fp.fptr = file.fp.fptr := by rw [object]
  have clean : middle.fp.faDirty = false := by rw [object]
  have seen : ∀ number, middle.cache.view number = file.cache.view number := by
    intro number
    rw [flushed]
    exact flush_view noCopies file.cache backed.coherent number (primary_none number)
  have newBacked : Backed start lost chain middle := by
    have coherent := flush_coherent noCopies file.cache separate_none backed.coherent
    rw [← flushed] at coherent
    exact ⟨by rw [object]; exact backed.valid, by rw [object]; exact backed.going,
      by rw [object]; exact backed.started, by rw [object]; exact backed.sized,
      by rw [object]; exact backed.filled, coherent, by rw [object]; exact backed.settled⟩
  have served : Served start lost front back file middle chain := by
    refine ⟨newStorage, newBacked, fun number _ _ apart => ?_, Or.inl (by rw [object]),
      fun number beside => by rw [volume, outside number beside.2]⟩
    have away : file.cache.held ≠ Option.some number :=
      fun held => apart (held_dsect file number held).1.symm
    exact (congrArg (fun cache => cache.store number) flushed).trans
      (flush_apart file.cache number away)
  have behind : ∀ data after,
      Wrote start lost front back chain middle data after chain →
      Wrote start lost front back chain file data after chain :=
    fun data after second => wrote_behind start lost front back chain file placed middle after chain
      []
      chain data storage (List.append_nil _).symm served pointer (by rw [SameWrite, object])
      (fun number _ => seen number) (by omega) backed.sized second (fun _ owned => owned)
  rw [← pointer] at boundary current inside
  have newCurrent : chain[middle.fp.fptr / clusterSize start]? = some middle.fp.clust := by
    rw [current, object]
  obtain ⟨known, sect⟩ :=
    current_sector start placed lost front back chain middle newStorage newCurrent inside
  obtain ⟨_, inRange, kept, _⟩ := storage_cells start lost front back chain _ storage
  have block := byte_block start chain middle.fp.fptr inside
  have available := data_sector_available start placed chain inRange _ block lost kept
  rw [OpenFile.writeSector, wrote]
  dsimp only
  rw [sect, if_neg known]
  by_cases direct : wbuff.length / sectorSize ≠ 0
  · obtain ⟨nonzero, few, together⟩ :=
      contiguous_bounds start placed middle newStorage.layout wbuff.length direct
    have size := Nat.mul_le_mul_left sectorSize few
    have less := Nat.mul_div_le wbuff.length sectorSize
    obtain ⟨after, written, result⟩ := write_direct_step start lost front back chain middle placed
      newStorage newBacked clean boundary newCurrent inside wbuff (middle.contiguous wbuff.length)
      nonzero
      (size.trans less) together
    exact ⟨_, after, by rw [if_pos direct, written], Nat.mul_pos (by decide) nonzero,
      size.trans less,
      behind _ _ result⟩
  · obtain ⟨entered, enters, enteredStorage, stored, enteredObject, filled, holds⟩ :=
      enter_sector_step start lost front back chain middle newStorage newBacked clean _ boundary
        (available_inside start placed lost _ available)
        (available_pos start lost _ placed _ storage _ available)
    obtain ⟨count, after, written, nonzero, few, result⟩ :=
      write_buf_step start lost front back chain middle
      placed entered enteredStorage newBacked newCurrent inside stored enteredObject filled
      (fun dirty => absurd (clean.symm.trans dirty) Bool.noConfusion) holds wbuff more
    refine ⟨count, after, ?_, nonzero, few, behind _ _ result⟩
    rw [if_neg direct, enters]
    exact written

/-- More clusters keep those of a file. A sector belongs to the chain of its cluster. -/
theorem owns_append (more : List Nat) (number : Nat) (owned : Owns start chain number) :
    Owns start (chain ++ more) number :=
  ⟨owned.1, List.mem_append_left _ owned.2⟩

/-- A file on a volume whose FAT has changed, with more clusters. Its first cluster is that of the
longer chain, which may be new. -/
theorem backed_grown (placed : DataPlaced start) (volume : Volume) (clst : Nat) (more : List Nat)
    (calm : Calm start lost file.volume volume) (backed : Backed start lost chain file) :
    Backed start lost (chain ++ more)
      ⟨volume, { file.fp with sclust := (chain ++ more).headD 0, clust := clst }⟩ := by
  have positive := cluster_size_pos start placed
  refine ⟨backed.valid, backed.going, rfl, ?_, backed.filled,
    data_coherent start lost chain file volume calm.data backed, backed.settled⟩
  rw [List.length_append, Nat.mul_add]
  exact backed.sized.trans (Nat.le_add_right _ _)

/-- A pass of the loop of `f_write` writes some bytes, or the volume is full. At least one byte is
written, so the loop comes to its end. -/
theorem write_step_step (placed : DataPlaced start)
    (storage : Storage start lost (front ++ chain :: back) file.volume)
    (tracks : Tracks start lost chain file) (wbuff : List u8) (more : 0 < wbuff.length) :
    (∃ volume, file.writeStep wbuff = .ok (.full, ⟨volume, file.fp⟩) ∧
      Storage start lost (front ++ chain :: back) volume ∧ Calm start lost file.volume volume ∧
      file.fp.fptr = clusterSize start * chain.length ∧
      chain.length = clustersFor start lost (front ++ back)) ∨
    ∃ count after grown, file.writeStep wbuff = .ok (.wrote count, after) ∧ 0 < count ∧
      count ≤ wbuff.length ∧
      Wrote start lost front back chain file (wbuff.take count) (after.advance count)
        (chain ++ grown) ∧
      (grown = [] ∨ grown.length = 1 ∧ file.fp.fptr = clusterSize start * chain.length) := by
  have backed := tracks.backed
  by_cases boundary : file.fp.fptr % sectorSize = 0
  · rcases write_cluster_places start lost front back chain file placed storage tracks boundary with
      ⟨volume, full, newStorage, calm, ended, room⟩ |
      ⟨volume, clst, grown, found, newStorage, calm, current, isGrown⟩
    · refine Or.inl ⟨volume, ?_, newStorage, calm, ended, room⟩
      rw [OpenFile.writeStep, if_pos boundary, full, ok_bind]
    · have newBacked := backed_grown start lost chain file placed volume clst grown calm backed
      have inside : file.fp.fptr < clusterSize start * (chain ++ grown).length := by
        obtain ⟨there, _⟩ := List.getElem?_eq_some_iff.mp current
        rw [Nat.mul_comm]
        exact (Nat.div_lt_iff_lt_mul (cluster_size_pos start placed)).mp there
      obtain ⟨count, after, wrote, nonzero, few, result⟩ := write_sector_step start lost front back
        (chain ++ grown) ⟨volume, { file.fp with
          sclust := (chain ++ grown).headD 0, clust := clst }⟩ placed newStorage newBacked boundary
        current inside wbuff more
      refine Or.inr ⟨count, after, grown, ?_, nonzero, few, ?_, isGrown⟩
      · rw [OpenFile.writeStep, if_pos boundary, found, ok_bind]
        dsimp only
        rw [wrote]
      · exact wrote_behind start lost front back chain file placed _ _ _ grown _ _ storage rfl
          (served_calm start lost front back file _ _ newStorage newBacked calm rfl) rfl rfl
          (data_view start lost file volume calm.data) tracks.within backed.sized result
          (fun _ owned => owned)
  · have positive := cluster_size_pos start placed
    have off : file.fp.fptr % clusterSize start ≠ 0 := by
      rw [clusterSize, Nat.mul_comm, Nat.mod_mul]
      omega
    have inside : file.fp.fptr < clusterSize start * chain.length := by
      refine Nat.lt_of_le_of_ne tracks.within (fun ended => off ?_)
      rw [ended, Nat.mul_mod_right]
    have current := tracks.current
      (Nat.pos_of_ne_zero (fun isZero => boundary (by rw [isZero]; rfl)))
    rw [pred_div _ _ off] at current
    have held := tracks.held boundary
    obtain ⟨_, inRange, kept, _⟩ := storage_cells start lost front back chain _ storage
    have block := byte_block start chain file.fp.fptr inside
    have available := data_sector_available start placed chain inRange _ block lost kept
    have nonzero := available_pos start lost _ placed _ storage _ available
    have shown : file.fp.buf =
        file.cache.view (dataSector start chain (file.fp.fptr / sectorSize)) := by
      rw [Cache.view, ← held]
      exact (if_pos (if_neg (by omega))).symm
    obtain ⟨count, after, wrote, taken, few, result⟩ :=
      write_buf_step start lost front back chain file
      placed file storage backed current inside rfl (by rw [← held]) backed.filled (fun _ => held)
      (Or.inl shown) wbuff more
    refine Or.inr ⟨count, after, [], ?_, taken, few, ?_, Or.inl rfl⟩
    · rw [OpenFile.writeStep, if_neg boundary, wrote]
    · rw [List.append_nil]
      exact result

/-- Writes behind each other are one. The second starts where the first one stopped. -/
theorem wrote_trans (middle after : OpenFile) (grown changed : List Nat) (data more : List u8)
    (first : Wrote start lost front back chain file data middle grown)
    (second : Wrote start lost front back grown middle more after changed)
    (kept : ∀ number, Owns start grown number → Owns start changed number) :
    Wrote start lost front back chain file (data ++ more) after changed where
  served := served_trans start lost front back grown file middle after changed first.served
    second.served kept
  tracks := second.tracks
  pointer := by rw [second.pointer, first.pointer, List.length_append, Nat.add_assoc]
  same := by rw [SameWrite, second.same, first.same]
  bytes := by
    intro index below
    have size : middle.fp.fsize = file.fp.fsize := by rw [first.same]
    rw [List.length_append] at below
    rw [second.bytes index (by rw [size, first.pointer]; omega), first.pointer,
      ← overlay_append, overlay]
    by_cases inside : file.fp.fptr + data.length ≤ index ∧
        index < file.fp.fptr + data.length + more.length
    · rw [if_pos inside, overlay, if_pos inside]
    · rw [if_neg inside, first.bytes index (by omega)]
      conv_rhs => rw [overlay, if_neg inside]

/-- Nothing is written. The chain stays as well. -/
theorem wrote_none (placed : DataPlaced start)
    (storage : Storage start lost (front ++ chain :: back) file.volume)
    (tracks : Tracks start lost chain file) (volume : Volume)
    (newStorage : Storage start lost (front ++ chain :: back) volume)
    (calm : Calm start lost file.volume volume) :
    Wrote start lost front back chain file [] ⟨volume, file.fp⟩ chain where
  served := served_calm start lost front back file _ chain newStorage
    (backed_calm start lost chain file volume file.fp.clust calm tracks.backed) calm rfl
  tracks := ⟨backed_calm start lost chain file volume file.fp.clust calm tracks.backed,
    tracks.within, tracks.current, tracks.held⟩
  pointer := rfl
  same := rfl
  bytes := by
    intro index below
    have within := tracks.within
    have sized := tracks.backed.sized
    rw [List.length_nil, Nat.add_zero] at below
    rw [overlay, if_neg (by rw [List.length_nil]; omega)]
    exact seen_byte start placed lost front back chain file _ storage
      (data_view start lost file volume calm.data) index (by omega)

/-- The loop of `f_write` writes as many bytes as there is room for. Proof: by induction on the
fuel, with one pass in front of the rest. -/
theorem write_loop_writes (placed : DataPlaced start) (fuel : Nat) (wbuff : List u8) (bw : Nat)
    (storage : Storage start lost (front ++ chain :: back) file.volume)
    (tracks : Tracks start lost chain file) (enough : wbuff.length < fuel) :
    ∃ count after grown, file.writeLoop fuel wbuff bw = .ok (.ok, bw + count, after.written) ∧
      count ≤ wbuff.length ∧
      Wrote start lost front back chain file (wbuff.take count) after (chain ++ grown) ∧
      (count = wbuff.length ∨
        file.fp.fptr + count = clusterSize start * (chain ++ grown).length ∧
          (chain ++ grown).length = clustersFor start lost (front ++ back)) ∧
      (grown = [] ∨
        clusterSize start * ((chain ++ grown).length - 1) < file.fp.fptr + count) := by
  induction fuel generalizing file chain wbuff bw with
  | zero => exact absurd enough (Nat.not_lt_zero _)
  | succ fuel inductionHypothesis =>
    rw [OpenFile.writeLoop]
    by_cases finished : wbuff.length = 0
    · refine ⟨0, file, [], by rw [if_pos finished, Nat.add_zero], by omega, ?_,
        Or.inl finished.symm,
        Or.inl rfl⟩
      rw [List.take_zero, List.append_nil]
      exact wrote_none start lost front back chain file placed storage tracks file.volume storage
        (calm_refl ..)
    · rw [if_neg finished]
      rcases write_step_step start lost front back chain file placed storage tracks wbuff
          (Nat.pos_of_ne_zero finished) with
        ⟨volume, full, newStorage, calm, ended, room⟩ |
        ⟨count, middle, grown, wrote, nonzero, few, first, isGrown⟩
      · refine ⟨0, ⟨volume, file.fp⟩, [], by rw [full, ok_bind, Nat.add_zero], by omega, ?_,
          Or.inr ⟨?_, ?_⟩, Or.inl rfl⟩
        · rw [List.take_zero, List.append_nil]
          exact wrote_none start lost front back chain file placed storage tracks volume newStorage
            calm
        · rw [List.append_nil, Nat.add_zero]
          exact ended
        · rw [List.append_nil]
          exact room
      · have taken : (wbuff.take count).length = count := List.length_take_of_le few
        have pointer := first.pointer
        rw [taken] at pointer
        obtain ⟨rest, after, more, ran, fewer, second, stopped, isMore⟩ :=
          inductionHypothesis (chain ++ grown) (middle.advance count) (wbuff.drop count)
          (bw + count)
            first.served.storage first.tracks (by rw [List.length_drop]; omega)
        have together : wbuff.take count ++ (wbuff.drop count).take rest =
            wbuff.take (count + rest) := List.take_add.symm
        have result := wrote_trans start lost front back chain file (middle.advance count) after
          (chain ++ grown) (chain ++ grown ++ more) _ _ first second
          (fun number owned => owns_append start (chain ++ grown) more number owned)
        rw [together, List.append_assoc] at result
        rw [List.length_drop] at fewer stopped
        rw [pointer, List.append_assoc, Nat.add_assoc] at stopped isMore
        refine ⟨count + rest, after, grown ++ more, ?_, by omega, result, ?_, ?_⟩
        · rw [wrote, ok_bind]
          dsimp only
          rw [ran, Nat.add_assoc]
        · exact stopped.imp_left (fun all => by omega)
        · rcases isMore with isEmpty | late
          · subst isEmpty
            rw [List.append_nil]
            rcases isGrown with isEmpty | ⟨one, ended⟩
            · exact Or.inl isEmpty
            · refine Or.inr ?_
              rw [List.length_append, one, Nat.add_sub_cancel, ← ended]
              omega
          · exact Or.inr late

/-- `f_write` writes as many bytes as there is room for, unless the file would reach 4 GB. A write
that would reach it writes nothing and answers success. -/
theorem f_write_writes (placed : DataPlaced start)
    (storage : Storage start lost (front ++ chain :: back) file.volume)
    (tracks : Tracks start lost chain file) (writable : file.fp.faWrite = true) (buff : List u8)
    (short : buff.length < 2 ^ 32) :
    ∃ count after grown, fWrite file buff = .ok (.ok, count, after.written) ∧
      count ≤ buff.length ∧
      Wrote start lost front back chain file (buff.take count) after (chain ++ grown) ∧
      (if file.fp.fsize + buff.length < 2 ^ 32 then
        count = buff.length ∨ file.fp.fptr + count = clusterSize start * (chain ++ grown).length ∧
          (chain ++ grown).length = clustersFor start lost (front ++ back)
      else count = 0) ∧
      (grown = [] ∨
        clusterSize start * ((chain ++ grown).length - 1) < file.fp.fptr + count) := by
  have sized := tracks.backed.sized
  have bytes := chain_bytes start lost front back chain placed file.volume storage
  have disk : diskSize < 2 ^ 32 := by decide
  have valid := validate_ok start lost front back chain file storage tracks.backed
  have wraps : dwordSum file.fp.fsize buff.length < file.fp.fsize ↔
      ¬ file.fp.fsize + buff.length < 2 ^ 32 := by
    rw [dwordSum]
    omega
  have opened : ∀ wbuff, (if dwordSum file.fp.fsize buff.length < file.fp.fsize then [] else buff) =
      wbuff → fWrite file buff = file.writeLoop (wbuff.length + 1) wbuff 0 := by
    rintro _ rfl
    rw [fWrite, valid]
    dsimp only
    rw [if_neg (by simp [tracks.backed.going]), if_neg (by simp [writable])]
  by_cases small : file.fp.fsize + buff.length < 2 ^ 32
  · obtain ⟨count, after, grown, ran, few, result, stopped, isGrown⟩ :=
      write_loop_writes start lost front
      back chain file placed (buff.length + 1) buff 0 storage tracks (Nat.lt_succ_self _)
    refine ⟨count, after, grown, ?_, few, result, ?_, isGrown⟩
    · rw [opened buff (if_neg (fun wrapped => wraps.mp wrapped small)), ran, Nat.zero_add]
    · rw [if_pos small]
      exact stopped
  · refine ⟨0, file, [], ?_, Nat.zero_le _, ?_, ?_, Or.inl rfl⟩
    · rw [opened [] (if_pos (wraps.mpr small))]
      rfl
    · rw [List.take_zero, List.append_nil]
      exact wrote_none start lost front back chain file placed storage tracks file.volume storage
        (calm_refl ..)
    · rw [if_neg small]

end Writes

end EffiLib.FatFs
