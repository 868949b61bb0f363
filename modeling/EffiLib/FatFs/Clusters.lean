import EffiLib.FatFs.FatEntries
import EffiLib.Library.Buffers
import EffiLib.Library.ChainTable

/-!
# Cluster chains

A file is a chain of clusters in the FAT. `create_chain` looks for a free cluster behind the
last one it has taken and links it to a chain; `remove_chain` gives the clusters of a chain
back; `f_getfree` counts those that are free. Through any run of these the chains share no
cluster, none is lost, and the count is exact.
-/

namespace EffiLib.FatFs

open Buffers ChainTable LittleEndian

/-- `clust2sect`: the first sector of a cluster, or zero for a bad cluster number. The first
cluster has the number 2. -/
def clust2sect (fs : FATFS) (clst : Nat) : Nat :=
  let clst := dwordDiff clst 2
  if clst ≥ dwordDiff fs.nFatent 2 then 0
  else dwordSum (clst * fs.csize) fs.database

/-- The counter of free clusters, which is the greatest word while it is unknown. It is the answer
of `get_fat` for a disk error, too. -/
def unknown : Nat := 0xFFFFFFFF

/-- One more free cluster in the FSInfo, if their number is known. The FSInfo sector has to be
written then. -/
def Volume.countFreed (volume : Volume) : Volume :=
  if volume.fs.freeClust ≠ unknown then
    { volume with
      fs := { volume.fs with freeClust := dwordSum volume.fs.freeClust 1, fsiFlag := true } }
  else volume

/-- One less, and the cluster that was taken. The next search begins behind that one. -/
def Volume.countTaken (volume : Volume) (ncl : Nat) : Volume :=
  let taken := { volume with fs := { volume.fs with lastClust := ncl } }
  if volume.fs.freeClust ≠ unknown then
    { taken with
      fs := { taken.fs with
        freeClust := dwordDiff taken.fs.freeClust 1, fsiFlag := true } }
  else taken

/-- The loop of `remove_chain`. It reads the link of a cluster, clears it and goes on. -/
def removeLoop : Nat → Volume → Nat → Run (FResult × Volume)
  | 0, _, _ => .error .unfinished
  | fuel + 1, volume, clst =>
    if clst < volume.fs.nFatent then
      let (nxt, looked) := getFat volume clst
      if nxt = 0 then .ok (.ok, looked)
      else if nxt = 1 then .ok (.intErr, looked)
      else if nxt = 0xFFFFFFFF then .ok (.diskErr, looked)
      else
        match putFat looked clst 0 with
        | (.ok, cleared) => removeLoop fuel cleared.countFreed nxt
        | (res, failed) => .ok (res, failed)
    else .ok (.ok, volume)

/-- `remove_chain`. The fuel is enough, since no cluster is cleared twice. -/
def removeChain (volume : Volume) (clst : Nat) : Run (FResult × Volume) :=
  if clst < 2 ∨ clst ≥ volume.fs.nFatent then .ok (.intErr, volume)
  else removeLoop (volume.fs.nFatent + 1) volume clst

/-- How the search of `create_chain` ends: with a free cluster, or with its answer. The answers
are those of `create_chain`. -/
inductive Search where
  | free (ncl : Nat)
  | answer (code : Nat)
deriving DecidableEq, Repr

/-- The search of `create_chain`, from the cluster behind `ncl` round to `scl`. Every cluster is
looked at once at most. -/
def searchFree (scl : Nat) : Nat → Volume → Nat → Run (Search × Volume)
  | 0, _, _ => .error .unfinished
  | fuel + 1, volume, ncl =>
    let ncl := ncl + 1
    let wrapped := ncl ≥ volume.fs.nFatent
    let ncl := if wrapped then 2 else ncl
    if wrapped ∧ ncl > scl then .ok (.answer 0, volume)
    else
      let (cs, looked) := getFat volume ncl
      if cs = 0 then .ok (.free ncl, looked)
      else if cs = 0xFFFFFFFF ∨ cs = 1 then .ok (.answer cs, looked)
      else if ncl = scl then .ok (.answer 0, looked)
      else searchFree scl fuel looked ncl

/-- The last part of `create_chain`: mark the free cluster as the last one and link it. A new file
has no cluster to link it to. -/
def linkFree (volume : Volume) (clst ncl : Nat) : Nat × Volume :=
  let (res, volume) := putFat volume ncl 0x0FFFFFFF
  let (res, volume) := if res = .ok ∧ clst ≠ 0 then putFat volume clst ncl else (res, volume)
  if res = .ok then (ncl, volume.countTaken ncl)
  else (if res = .diskErr then 0xFFFFFFFF else 1, volume)

/-- The search and the link of `create_chain`. It is asked for when the cluster is the last one of
its chain. -/
def stretchChain (volume : Volume) (clst scl : Nat) : Run (Nat × Volume) := do
  match ← searchFree scl (volume.fs.nFatent + 1) volume scl with
  | (.free ncl, found) => .ok (linkFree found clst ncl)
  | (.answer code, looked) => .ok (code, looked)

/-- `create_chain`. The answer is the next cluster, or 0 on a full volume, 1 for a bad chain, or
the greatest word for a disk error. -/
def createChain (volume : Volume) (clst : Nat) : Run (Nat × Volume) :=
  if clst = 0 then
    let scl := volume.fs.lastClust
    stretchChain volume 0 (if scl = 0 ∨ scl ≥ volume.fs.nFatent then 1 else scl)
  else
    let (cs, looked) := getFat volume clst
    if cs < 2 then .ok (1, looked)
    else if cs < looked.fs.nFatent then .ok (cs, looked)
    else stretchChain looked clst clst

/-- The part of `f_truncate` that shortens a chain behind a cluster. A cluster that is the last
one already has nothing behind it. -/
def truncateChain (volume : Volume) (clst : Nat) : Run (FResult × Volume) :=
  let (ncl, looked) := getFat volume clst
  if ncl = 0xFFFFFFFF then .ok (.diskErr, looked)
  else if ncl = 1 then .ok (.intErr, looked)
  else if ncl < looked.fs.nFatent then
    match putFat looked clst 0x0FFFFFFF with
    | (.ok, cut) => removeChain cut ncl
    | (res, failed) => .ok (res, failed)
  else .ok (.ok, looked)

/-- The scan of `f_getfree` on a FAT12 volume, with so many clusters to look at. The entries may
lie across two sectors, so each is read with `get_fat`. -/
def scanEntries : Nat → Volume → Nat → Nat → FResult × Nat × Volume
  | 0, volume, _, n => (.ok, n, volume)
  | count + 1, volume, clst, n =>
    let (stat, looked) := getFat volume clst
    if stat = 0xFFFFFFFF then (.diskErr, n, looked)
    else if stat = 1 then (.intErr, n, looked)
    else scanEntries count looked (clst + 1) (if stat = 0 then n + 1 else n)

/-- The scan of `f_getfree` on the others, sector by sector: `i` bytes are left in the window,
the next of them at `p`. -/
def scanSectors (width : Nat) (isFree : List u8 → Nat → Bool) :
    Nat → Volume → Nat → Nat → Nat → Nat → FResult × Nat × Volume
  | 0, volume, _, _, _, n => (.ok, n, volume)
  | clst + 1, volume, sect, i, p, n =>
    if i = 0 then
      match moveWindow volume sect with
      | (.ok, moved) =>
        scanSectors width isFree clst moved (dwordSum sect 1) (sectorSize - width) width
          (if isFree moved.fs.win 0 then n + 1 else n)
      | (res, failed) => (res, n, failed)
    else
      scanSectors width isFree clst volume sect (i - width) (p + width)
        (if isFree volume.fs.win p then n + 1 else n)

/-- The scan of `f_getfree`. On the other types the sectors are gone through directly. -/
def scanFree (volume : Volume) : FResult × Nat × Volume :=
  match volume.fs.fsType with
  | .fat12 => scanEntries (volume.fs.nFatent - 2) volume 2 0
  | .fat16 =>
    scanSectors 2 (fun win p => ldWord win p = 0) volume.fs.nFatent volume volume.fs.fatbase 0 0 0
  | _ =>
    scanSectors 4 (fun win p => (ldDword win p &&& 0x0FFFFFFF) = 0) volume.fs.nFatent volume
      volume.fs.fatbase 0 0 0

/-- `f_getfree` on a mounted volume, which has a cluster. A known number is answered without a
scan. -/
def fGetfree (volume : Volume) : FResult × Nat × Volume :=
  if volume.fs.freeClust ≤ dwordDiff volume.fs.nFatent 2 then (.ok, volume.fs.freeClust, volume)
  else
    let (res, n, scanned) := scanFree volume
    let counted := { scanned with fs := { scanned.fs with freeClust := n } }
    (res, n, if volume.fs.fsType = .fat32 then
      { counted with fs := { counted.fs with fsiFlag := true } } else counted)

/-! ## Volumes that hold chains -/

/-- Of the file system object only the window and the counters have changed. The geometry of a
volume is fixed while it is mounted. -/
def SameLayout (fs after : FATFS) : Prop :=
  after = { fs with
    wflag := after.wflag, winsect := after.winsect, win := after.win,
    lastClust := after.lastClust, freeClust := after.freeClust, fsiFlag := after.fsiFlag }

/-- Volumes of one layout have their FATs in the same place. So the sectors outside them are the
same. -/
theorem same_layout_outside (fs after : FATFS) (layout : SameLayout fs after) (number : Nat) :
    OutsideFat after number ↔ OutsideFat fs number := by
  rw [OutsideFat, layout]
  exact Iff.rfl

/-- The layout of a volume and its sectors outside the FAT are as before. So directories and files
are not touched by work on the FAT. -/
structure Kept (volume after : Volume) : Prop where
  layout : SameLayout volume.fs after.fs
  apart : Apart volume after
  others : ∀ number, OutsideFat volume.fs number →
    after.cache.view number = volume.cache.view number

/-- The counter is unknown or right. It is unknown until the free clusters were counted or
read. -/
def Counted (volume : Volume) : Prop :=
  volume.fs.freeClust = unknown ∨
    volume.fs.freeClust = (freeCells volume.link 2 volume.fs.nFatent).card

/-- The FAT holds the chains of the files, and the counter fits. The first two entries, which
belong to no cluster, are marked. -/
structure Consistent (volume : Volume) (lost : List Nat) (files : List (List Nat)) : Prop where
  mounted : Mounted volume
  holds : Holds volume.link 2 volume.fs.nFatent lost files
  counted : Counted volume
  marks : volume.link 0 ≠ 0 ∧ volume.link 1 ≠ 0

/-- A change of the window keeps the layout. The geometry of the volume is not part of the
window. -/
theorem relinked_kept (volume after : Volume) (links : Nat → Nat)
    (relinked : Relinked volume links after) : Kept volume after := by
  refine ⟨?_, relinked.apart, relinked.others⟩
  rw [SameLayout, relinked.system]

/-- What is kept by two steps. So it is kept by any number of them. -/
theorem kept_trans (volume middle after : Volume) (first : Kept volume middle)
    (second : Kept middle after) : Kept volume after := by
  have still : ∀ number, OutsideFat volume.fs number → OutsideFat middle.fs number :=
    fun number => (same_layout_outside _ _ first.layout number).mpr
  refine ⟨?_, fun number outside away => ?_, fun number outside => ?_⟩
  · rw [SameLayout, second.layout, first.layout]
  · exact second.apart number (still number outside) (first.apart number outside away)
  · rw [second.others number (still number outside), first.others number outside]

/-- The counters do not show in the window. So a mounted volume may have any counters. -/
theorem counters_mounted (volume : Volume) (mounted : Mounted volume)
    (lastClust freeClust : Nat) (fsiFlag : Bool) :
    Mounted { volume with fs := { volume.fs with lastClust, freeClust, fsiFlag } } := by
  have sound := mounted.sound
  exact ⟨⟨⟨sound.placed.reserved, sound.placed.present, sound.placed.inside⟩, sound.complete,
    sound.filled, sound.within, sound.behind, sound.coherent⟩, mounted.known, mounted.present,
    mounted.roomy, mounted.limited⟩

/-- An entry is below its range. The upper bits of an entry of FAT32 do not belong to it. -/
theorem link_lt (volume : Volume) (mounted : Mounted volume) (clst : Nat) :
    volume.link clst < entryRange volume.fs.fsType := by
  rw [Volume.link]
  split
  · rename_i fat12
    have low := (byteAt (volume.fatSector ((clst + clst / 2) / sectorSize))
      ((clst + clst / 2) % sectorSize)).toNat_lt
    have high := (byteAt (volume.fatSector ((clst + clst / 2 + 1) / sectorSize))
      ((clst + clst / 2 + 1) % sectorSize)).toNat_lt
    simp only [Volume.fatByte, fat12, entryRange]
    split <;> omega
  · rename_i fat16
    rw [fat16]
    exact LittleEndian.load_word_lt 2 _ _
  · rename_i fat32
    rw [fat32]
    exact Nat.mod_lt _ (by decide)
  · rename_i unmounted
    exact absurd unmounted mounted.known

/-- The entries of every type are below the answers that stand for errors. So a link is never
taken for a disk error. -/
theorem entry_range_small (fsType : FsType) : entryRange fsType ≤ 2 ^ 28 := by
  cases fsType <;> decide

/-- The end mark, as it is read again, is no cluster number. So a chain ends there. -/
theorem end_mark_ends (volume : Volume) (mounted : Mounted volume) :
    volume.fs.nFatent ≤ 0x0FFFFFFF % entryRange volume.fs.fsType := by
  have limited := mounted.limited
  have known := mounted.known
  cases kind : volume.fs.fsType <;> rw [kind] at limited known <;>
    simp only [entryRange] at limited ⊢ <;> omega

/-- Steps of the window with known links. The links behind both are those of the second. -/
theorem relinked_trans (volume middle after : Volume) (links others : Nat → Nat)
    (first : Relinked volume links middle) (second : Relinked middle others after) :
    Relinked volume others after := by
  have count : middle.fs.nFatent = volume.fs.nFatent := by rw [first.system]
  have layout := (relinked_kept volume middle links first).layout
  have still : ∀ number, OutsideFat volume.fs number → OutsideFat middle.fs number :=
    fun number => (same_layout_outside _ _ layout number).mpr
  refine ⟨second.mounted, same_system_trans _ _ _ first.system second.system,
    fun number outside away =>
      second.apart number (still number outside) (first.apart number outside away),
    fun clst below => second.linked clst (count ▸ below), fun number outside => ?_⟩
  rw [second.others number (still number outside), first.others number outside]

/-- The links matter where there are clusters. Beyond the entries of the FAT the function of the
links may be anything. -/
theorem relinked_congr (volume after : Volume) (links others : Nat → Nat)
    (relinked : Relinked volume links after)
    (same : ∀ clst < volume.fs.nFatent, links clst = others clst) :
    Relinked volume others after :=
  ⟨relinked.mounted, relinked.system, relinked.apart,
    fun clst below => (relinked.linked clst below).trans (same clst below), relinked.others⟩

/-- A mounted volume is its own. No step has been made. -/
theorem relinked_refl (volume : Volume) (mounted : Mounted volume) :
    Relinked volume volume.link volume :=
  ⟨mounted, rfl, fun _ _ away => away, fun _ _ => rfl, fun _ _ => rfl⟩

/-- A volume is kept by itself. No step has been made. -/
theorem kept_refl (volume : Volume) : Kept volume volume :=
  ⟨rfl, fun _ _ away => away, fun _ _ => rfl⟩

/-! ## Searching for a free cluster -/

/-- The clusters that the search still looks at, behind `ncl` and round to `scl`. The cluster
where the search began comes last. -/
def upcoming (nFatent scl ncl : Nat) : List Nat :=
  if scl ≤ ncl then List.range' (ncl + 1) (nFatent - 1 - ncl) ++ List.range' 2 (scl - 1)
  else List.range' (ncl + 1) (scl - ncl)

/-- The search looks at clusters of the volume. The search begins again at cluster 2 behind the
last one. -/
theorem mem_upcoming (nFatent scl ncl clst : Nat) (nonzero : 1 ≤ scl) (inside : scl < nFatent)
    (place : scl ≤ ncl ∨ 2 ≤ ncl) (member : clst ∈ upcoming nFatent scl ncl) :
    2 ≤ clst ∧ clst < nFatent := by
  rw [upcoming] at member
  split at member
  · rcases List.mem_append.mp member with early | late
    · have bounds := List.mem_range'_1.mp early
      omega
    · have bounds := List.mem_range'_1.mp late
      omega
  · have bounds := List.mem_range'_1.mp member
    omega

/-- From the start on it looks at all of them. So a search that fails has seen that no cluster is
free. -/
theorem upcoming_all (nFatent scl clst : Nat) (above : 2 ≤ clst) (below : clst < nFatent) :
    clst ∈ upcoming nFatent scl scl := by
  rw [upcoming, if_pos (Nat.le_refl scl), List.mem_append, List.mem_range'_1, List.mem_range'_1]
  omega

/-- The next cluster of the search, and those behind it. Behind the last cluster of the volume it
goes on with cluster 2. -/
theorem upcoming_next (nFatent scl ncl : Nat) (inside : scl < nFatent)
    (below : ncl < nFatent) (next : Nat)
    (isNext : next = if ncl + 1 ≥ nFatent then 2 else ncl + 1)
    (goes : ¬ (ncl + 1 ≥ nFatent ∧ next > scl)) :
    upcoming nFatent scl ncl =
      next :: if next = scl then [] else upcoming nFatent scl next := by
  by_cases wraps : ncl + 1 ≥ nFatent
  · rw [if_pos wraps] at isNext
    subst isNext
    have behind : 2 ≤ scl := Nat.le_of_not_lt (fun later => goes ⟨wraps, later⟩)
    have isZero : nFatent - 1 - ncl = 0 := by omega
    have many : scl - 1 = scl - 2 + 1 := by omega
    rw [upcoming, if_pos (by omega), isZero, many, List.range'_zero, List.nil_append,
      List.range'_succ]
    split
    · rename_i last
      rw [← last]
      rfl
    · rename_i more
      rw [upcoming, if_neg (by omega)]
  · rw [if_neg wraps] at isNext
    subst isNext
    by_cases before : scl ≤ ncl
    · have many : nFatent - 1 - ncl = nFatent - 1 - (ncl + 1) + 1 := by omega
      rw [upcoming, if_pos before, many, List.range'_succ, List.cons_append, if_neg (by omega),
        upcoming, if_pos (by omega)]
    · have many : scl - ncl = scl - (ncl + 1) + 1 := by omega
      rw [upcoming, if_neg before, many, List.range'_succ]
      split
      · rename_i last
        rw [← last, Nat.sub_self, List.range'_zero]
      · rename_i more
        rw [upcoming, if_neg (by omega)]

/-- How a search over some clusters ends. No free cluster gives the answer zero. -/
def searched (links : Nat → Nat) (clusters : List Nat) : Search :=
  (clusters.find? (fun clst => links clst = 0)).elim (.answer 0) .free

/-- A volume with the links of another may be read. The window has moved at most, so the entry is
the one of the start. -/
theorem get_fat_again (start volume : Volume) (relinked : Relinked start start.link volume)
    (clst : Nat) (inRange : InRange start.fs clst) :
    ∃ after, getFat volume clst = (start.link clst, after) ∧
      Relinked start start.link after := by
  have count : volume.fs.nFatent = start.fs.nFatent := by rw [relinked.system]
  have inside : InRange volume.fs clst := by
    rw [InRange, count]
    exact inRange
  obtain ⟨after, read, same⟩ := get_fat_reads volume relinked.mounted clst inside
  refine ⟨after, ?_, relinked_congr _ _ _ _ (relinked_trans _ _ _ _ _ relinked same)
    relinked.linked⟩
  rw [read, relinked.linked clst inRange.2]

/-- The search stops at the first free cluster among those it still looks at. Proof: by induction
on the clusters it still looks at. -/
theorem search_free_finds (start : Volume) (scl : Nat) (nonzero : 1 ≤ scl)
    (inside : scl < start.fs.nFatent) (small : ∀ clst, start.link clst < 2 ^ 28)
    (proper : ∀ clst, InRange start.fs clst → start.link clst ≠ 1) (fuel : Nat)
    (volume : Volume) (ncl : Nat) (relinked : Relinked start start.link volume)
    (below : ncl < start.fs.nFatent) (place : scl ≤ ncl ∨ 2 ≤ ncl)
    (enough : (upcoming start.fs.nFatent scl ncl).length < fuel) :
    ∃ after, searchFree scl fuel volume ncl =
        .ok (searched start.link (upcoming start.fs.nFatent scl ncl), after) ∧
      Relinked start start.link after := by
  induction fuel generalizing volume ncl with
  | zero => exact absurd enough (Nat.not_lt_zero _)
  | succ fuel inductionHypothesis =>
    have count : volume.fs.nFatent = start.fs.nFatent := by rw [relinked.system]
    rw [searchFree]
    simp only [count]
    generalize isNext : (if ncl + 1 ≥ start.fs.nFatent then 2 else ncl + 1) = next
    by_cases ends : ncl + 1 ≥ start.fs.nFatent ∧ next > scl
    · have isEmpty : upcoming start.fs.nFatent scl ncl = [] := by
        rw [if_pos ends.1] at isNext
        have first : start.fs.nFatent - 1 - ncl = 0 := by omega
        have second : scl - 1 = 0 := by omega
        rw [upcoming, if_pos (by omega), first, second]
        rfl
      rw [if_pos ends, isEmpty]
      exact ⟨volume, rfl, relinked⟩
    · have list := upcoming_next _ scl ncl inside below next isNext.symm ends
      have member : next ∈ upcoming start.fs.nFatent scl ncl := by
        rw [list]
        exact List.mem_cons_self
      have inRange := mem_upcoming _ scl ncl next nonzero inside place member
      obtain ⟨looked, read, same⟩ := get_fat_again start volume relinked next inRange
      have noError := proper next inRange
      have noDisk : start.link next ≠ 0xFFFFFFFF := Nat.ne_of_lt ((small next).trans (by decide))
      rw [if_neg ends, read, list]
      dsimp only
      by_cases free : start.link next = 0
      · refine ⟨looked, ?_, same⟩
        rw [if_pos free, searched, List.find?_cons_of_pos (by simpa using free)]
        rfl
      · have skip : searched start.link
            (next :: if next = scl then [] else upcoming start.fs.nFatent scl next) =
            searched start.link
              (if next = scl then [] else upcoming start.fs.nFatent scl next) := by
          rw [searched, List.find?_cons_of_neg (by simpa using free), searched]
        rw [if_neg free, if_neg (by simp [noError, noDisk]), skip]
        by_cases last : next = scl
        · rw [if_pos last, if_pos last]
          exact ⟨looked, rfl, same⟩
        · rw [if_neg last, if_neg last]
          rw [list, if_neg last, List.length_cons] at enough
          exact inductionHypothesis looked next same inRange.2 (Or.inr inRange.1) (by omega)

/-- A whole search finds a free cluster, or there is none. No other answer is left when every
entry is a link or zero. -/
theorem searched_whole (links : Nat → Nat) (nFatent scl : Nat) (nonzero : 1 ≤ scl)
    (inside : scl < nFatent) :
    (∃ ncl, searched links (upcoming nFatent scl scl) = .free ncl ∧ 2 ≤ ncl ∧ ncl < nFatent ∧
        links ncl = 0) ∨
      searched links (upcoming nFatent scl scl) = .answer 0 ∧
        ∀ clst, 2 ≤ clst → clst < nFatent → links clst ≠ 0 := by
  cases found : (upcoming nFatent scl scl).find? (fun clst => links clst = 0) with
  | none =>
    refine Or.inr ⟨by rw [searched, found]; rfl, fun clst above below => ?_⟩
    simpa using List.find?_eq_none.mp found clst (upcoming_all _ scl clst above below)
  | some ncl =>
    have bounds := mem_upcoming _ scl scl ncl nonzero inside (Or.inl (Nat.le_refl _))
      (List.mem_of_find?_eq_some found)
    exact Or.inl ⟨ncl, by rw [searched, found]; rfl, bounds.1, bounds.2,
      by simpa using List.find?_some found⟩

/-- The looked at clusters are fewer than the entries. So the fuel of the loop is enough. -/
theorem upcoming_short (nFatent scl : Nat) (nonzero : 1 ≤ scl) (inside : scl < nFatent) :
    (upcoming nFatent scl scl).length < nFatent + 1 := by
  rw [upcoming, if_pos (Nat.le_refl scl), List.length_append, List.length_range',
    List.length_range']
  omega

/-- The start of the search on a volume that has a cluster. A hint outside of the volume is
replaced by 1, and the search begins at 2. -/
theorem search_start (nFatent lastClust : Nat) (present : 2 < nFatent) :
    1 ≤ (if lastClust = 0 ∨ lastClust ≥ nFatent then 1 else lastClust) ∧
      (if lastClust = 0 ∨ lastClust ≥ nFatent then 1 else lastClust) < nFatent := by
  split <;> omega

/-! ## Creating and stretching chains -/

/-- A volume with the same links and the same counter holds the same chains. The last cluster
taken does not matter. -/
theorem consistent_alike (volume after : Volume) (lost : List Nat) (files : List (List Nat))
    (consistent : Consistent volume lost files) (mounted : Mounted after)
    (count : after.fs.nFatent = volume.fs.nFatent)
    (counter : after.fs.freeClust = volume.fs.freeClust)
    (linked : ∀ clst < volume.fs.nFatent, after.link clst = volume.link clst) :
    Consistent after lost files := by
  have present := consistent.mounted.present
  refine ⟨mounted, ?_, ?_, ?_⟩
  · rw [count]
    exact holds_congr volume.link after.link _ _ _ _ consistent.holds
      (fun clst _ below => linked clst below)
  · rw [Counted, counter, count, free_cells_congr volume.link after.link _ _
      (fun clst _ below => linked clst below)]
    exact consistent.counted
  · rw [linked 0 (by omega), linked 1 (by omega)]
    exact consistent.marks

/-- Chains that lie in one volume lie in another with the same links. The other may differ in its
window. -/
theorem consistent_same (volume after : Volume) (lost : List Nat) (files : List (List Nat))
    (consistent : Consistent volume lost files) (mounted : Mounted after)
    (system : SameSystem volume.fs after.fs)
    (linked : ∀ clst < volume.fs.nFatent, after.link clst = volume.link clst) :
    Consistent after lost files :=
  consistent_alike volume after lost files consistent mounted (by rw [system]) (by rw [system])
    linked

/-- Looking at the FAT changes nothing in its chains. The window may have moved over it. -/
theorem consistent_relinked (volume after : Volume) (lost : List Nat) (files : List (List Nat))
    (consistent : Consistent volume lost files)
    (relinked : Relinked volume volume.link after) : Consistent after lost files :=
  consistent_same volume after lost files consistent relinked.mounted relinked.system
    relinked.linked

/-- A free cluster was linked in, and the counter follows. One free cluster less was counted. -/
theorem consistent_taken (volume after : Volume) (lost : List Nat) (files changed : List (List Nat))
    (links : Nat → Nat) (ncl : Nat) (consistent : Consistent volume lost files)
    (relinked : Relinked volume links after)
    (holds : Holds links 2 volume.fs.nFatent lost changed)
    (taken : (freeCells links 2 volume.fs.nFatent).card + 1 =
      (freeCells volume.link 2 volume.fs.nFatent).card)
    (marks : links 0 = volume.link 0 ∧ links 1 = volume.link 1) :
    Consistent (after.countTaken ncl) lost changed := by
  have present := consistent.mounted.present
  have count : after.fs.nFatent = volume.fs.nFatent := by rw [relinked.system]
  have counter : after.fs.freeClust = volume.fs.freeClust := by rw [relinked.system]
  have same : ∀ clst, 2 ≤ clst → clst < volume.fs.nFatent → after.link clst = links clst :=
    fun clst _ below => relinked.linked clst below
  have held : Holds after.link 2 after.fs.nFatent lost changed := by
    rw [count]
    exact holds_congr links after.link _ _ _ _ holds same
  have cells := free_cells_congr links after.link _ _ same
  have marked : after.link 0 ≠ 0 ∧ after.link 1 ≠ 0 := by
    rw [relinked.linked 0 (by omega), relinked.linked 1 (by omega), marks.1, marks.2]
    exact consistent.marks
  have few := free_cells_bounded volume.link 2 volume.fs.nFatent
  have limited := consistent.mounted.limited
  have range := entry_range_small volume.fs.fsType
  rcases consistent.counted with isUnknown | isCount
  · have stays : after.countTaken ncl =
        { after with fs := { after.fs with lastClust := ncl } } := by
      rw [Volume.countTaken, if_neg (by rw [counter, isUnknown]; simp)]
    rw [stays]
    exact ⟨counters_mounted after relinked.mounted ncl after.fs.freeClust after.fs.fsiFlag, held,
      Or.inl (counter.trans isUnknown), marked⟩
  · have known : after.fs.freeClust ≠ unknown := by
      rw [counter, isCount, unknown]
      omega
    have less : dwordDiff after.fs.freeClust 1 =
        (freeCells after.link 2 after.fs.nFatent).card := by
      rw [dword_diff_small _ _ (by omega) (by omega), count, cells]
      omega
    have counts : after.countTaken ncl = { after with
        fs := { after.fs with
          lastClust := ncl, freeClust := dwordDiff after.fs.freeClust 1, fsiFlag := true } } := by
      rw [Volume.countTaken, if_pos known]
    rw [counts]
    exact ⟨counters_mounted after relinked.mounted ncl _ true, held, Or.inr less, marked⟩

/-- The volume behind taking a cluster is kept. The counter and the hint are no part of what is
kept. -/
theorem count_taken_kept (volume after : Volume) (ncl : Nat) (kept : Kept volume after) :
    Kept volume (after.countTaken ncl) := by
  rw [Volume.countTaken]
  dsimp only
  split
  · refine ⟨?_, kept.apart, kept.others⟩
    rw [SameLayout, kept.layout]
  · refine ⟨?_, kept.apart, kept.others⟩
    rw [SameLayout, kept.layout]

/-- No entry of a consistent volume is taken for an error. The value 1 stands for an error and is
linked nowhere. -/
theorem consistent_proper (volume : Volume) (lost : List Nat) (files : List (List Nat))
    (consistent : Consistent volume lost files) (clst : Nat) :
    (InRange volume.fs clst → volume.link clst ≠ 1) ∧ volume.link clst < 2 ^ 28 := by
  constructor
  · intro inRange
    have proper := consistent.holds.proper clst inRange.1 inRange.2
    omega
  · exact (link_lt volume consistent.mounted clst).trans_le (entry_range_small _)

/-- The search of a consistent volume finds a free cluster, or there is none. Nothing was changed
by looking for it. -/
theorem stretch_chain_searches (volume : Volume) (lost : List Nat) (files : List (List Nat))
    (consistent : Consistent volume lost files) (clst scl : Nat) (nonzero : 1 ≤ scl)
    (inside : scl < volume.fs.nFatent) :
    ∃ looked, Relinked volume volume.link looked ∧
      ((∃ ncl, InRange volume.fs ncl ∧ volume.link ncl = 0 ∧
          stretchChain volume clst scl = .ok (linkFree looked clst ncl)) ∨
        (∀ other, InRange volume.fs other → volume.link other ≠ 0) ∧
          stretchChain volume clst scl = .ok (0, looked)) := by
  have entries := consistent_proper volume lost files consistent
  obtain ⟨looked, found, same⟩ := search_free_finds volume scl nonzero inside
    (fun other => (entries other).2) (fun other => (entries other).1) (volume.fs.nFatent + 1) volume
    scl (relinked_refl volume consistent.mounted) inside (Or.inl (Nat.le_refl _))
    (upcoming_short _ scl nonzero inside)
  refine ⟨looked, same, ?_⟩
  rcases searched_whole volume.link volume.fs.nFatent scl nonzero inside with
    ⟨ncl, isFree, above, below, free⟩ | ⟨isFull, full⟩
  · rw [isFree] at found
    exact Or.inl ⟨ncl, ⟨above, below⟩, free, by rw [stretchChain, found, ok_bind]⟩
  · rw [isFull] at found
    exact Or.inr ⟨fun other inRange => full other inRange.1 inRange.2, by
      rw [stretchChain, found, ok_bind]⟩

/-- A free cluster starts the chain of an empty file, unless the volume is full. No other file
changes. -/
theorem create_chain_start (volume : Volume) (lost : List Nat) (front back : List (List Nat))
    (consistent : Consistent volume lost (front ++ [] :: back)) :
    ∃ reply after, createChain volume 0 = .ok (reply, after) ∧ Kept volume after ∧
      (reply = 0 ∧ (∀ clst, InRange volume.fs clst → volume.link clst ≠ 0) ∧
          Consistent after lost (front ++ [] :: back) ∨
        InRange volume.fs reply ∧ volume.link reply = 0 ∧
          Consistent after lost (front ++ [reply] :: back)) := by
  obtain ⟨nonzero, inside⟩ := search_start volume.fs.nFatent volume.fs.lastClust
    consistent.mounted.present
  have starts : createChain volume 0 = stretchChain volume 0
      (if volume.fs.lastClust = 0 ∨ volume.fs.lastClust ≥ volume.fs.nFatent then 1
        else volume.fs.lastClust) := by rw [createChain, if_pos rfl]
  rw [starts]
  obtain ⟨looked, same, searched⟩ :=
    stretch_chain_searches volume lost _ consistent 0 _ nonzero inside
  rcases searched with ⟨ncl, inRange, free, found⟩ | ⟨full, answered⟩
  · have count : looked.fs.nFatent = volume.fs.nFatent := by rw [same.system]
    have kind : looked.fs.fsType = volume.fs.fsType := by rw [same.system]
    have ends := end_mark_ends volume consistent.mounted
    obtain ⟨after, put, linked⟩ := put_fat_links looked same.mounted ncl 0x0FFFFFFF
      ⟨inRange.1, count ▸ inRange.2⟩
    have relinked : Relinked volume (Function.update volume.link ncl
        (0x0FFFFFFF % entryRange volume.fs.fsType)) after := by
      refine relinked_congr _ _ _ _ (relinked_trans _ _ _ _ _ same linked) (fun clst below => ?_)
      rw [Function.update_apply, Function.update_apply, same.linked clst below, kind]
    have answer : linkFree looked 0 ncl = (ncl, after.countTaken ncl) := by
      rw [linkFree, put]
      simp
    have present := consistent.mounted.present
    refine ⟨ncl, after.countTaken ncl, by rw [found, answer],
      count_taken_kept _ _ _ (relinked_kept _ _ _ relinked), Or.inr ⟨inRange, free, ?_⟩⟩
    refine consistent_taken volume after lost _ _ _ ncl consistent relinked
      (holds_start _ _ _ _ _ _ consistent.holds ncl _ inRange.1 inRange.2 free ends)
      (free_cells_taken _ _ _ ncl inRange.1 inRange.2 _ free (by omega)) ?_
    have above := inRange.1
    exact ⟨Function.update_of_ne (by omega) .., Function.update_of_ne (by omega) ..⟩
  · exact ⟨0, looked, answered, relinked_kept _ _ _ same, Or.inl ⟨rfl, full,
      consistent_relinked _ _ _ _ consistent same⟩⟩

/-- A cluster of a chain, with what it is linked to. The rest of the chain is a path from
there. -/
theorem chain_cell (volume : Volume) (lost : List Nat) (front back : List (List Nat))
    (start rest : List Nat) (clst : Nat)
    (consistent : Consistent volume lost (front ++ (start ++ clst :: rest) :: back)) :
    InRange volume.fs clst ∧ 2 ≤ volume.link clst ∧
      ∃ last, volume.fs.nFatent ≤ last ∧ Path volume.link (volume.link clst) rest last := by
  obtain ⟨_, cells, last, ends, path⟩ :=
    holds_chain _ _ _ _ _ _ _ consistent.holds
  obtain ⟨above, below, _, proper⟩ := cells clst (by simp)
  exact ⟨⟨above, below⟩, proper, last, ends, (path_next _ _ last clst start rest path).2⟩

/-- Behind a cluster in the middle of a chain the next one is found. Nothing is stretched
there. -/
theorem create_chain_follows (volume : Volume) (lost : List Nat) (front back : List (List Nat))
    (start rest : List Nat) (clst next : Nat)
    (consistent : Consistent volume lost (front ++ (start ++ clst :: next :: rest) :: back)) :
    ∃ after, createChain volume clst = .ok (next, after) ∧
      Relinked volume volume.link after := by
  obtain ⟨inRange, proper, last, _, path⟩ := chain_cell _ _ _ _ _ _ _ consistent
  have linked : volume.link clst = next := path.1
  have nextRange : InRange volume.fs next := by
    have again := chain_cell volume lost front back (start ++ [clst]) rest next
      (by simpa using consistent)
    exact again.1
  obtain ⟨after, read, same⟩ := get_fat_reads volume consistent.mounted clst inRange
  have count : after.fs.nFatent = volume.fs.nFatent := by rw [same.system]
  have above := inRange.1
  have nextAbove := nextRange.1
  refine ⟨after, ?_, same⟩
  rw [createChain, if_neg (by omega), read, linked]
  dsimp only
  rw [if_neg (by omega), if_pos (by rw [count]; exact nextRange.2)]

/-- A free cluster is linked to the last one of a chain, unless the volume is full. No other file
changes. -/
theorem create_chain_stretch (volume : Volume) (lost : List Nat) (front back : List (List Nat))
    (start : List Nat) (clst : Nat)
    (consistent : Consistent volume lost (front ++ (start ++ [clst]) :: back)) :
    ∃ reply after, createChain volume clst = .ok (reply, after) ∧ Kept volume after ∧
      (reply = 0 ∧ (∀ other, InRange volume.fs other → volume.link other ≠ 0) ∧
          Consistent after lost (front ++ (start ++ [clst]) :: back) ∨
        InRange volume.fs reply ∧ volume.link reply = 0 ∧
          Consistent after lost (front ++ (start ++ [clst, reply]) :: back)) := by
  obtain ⟨inRange, proper, last, lastEnds, isLast⟩ := chain_cell _ _ _ _ _ _ _ consistent
  have ended : volume.fs.nFatent ≤ volume.link clst := by
    have same : volume.link clst = last := isLast
    omega
  obtain ⟨first, read, firstSame⟩ := get_fat_reads volume consistent.mounted clst inRange
  have firstConsistent := consistent_relinked _ _ _ _ consistent firstSame
  have firstCount : first.fs.nFatent = volume.fs.nFatent := by rw [firstSame.system]
  have above := inRange.1
  have below := inRange.2
  have searches : createChain volume clst = stretchChain first clst clst := by
    rw [createChain, if_neg (by omega), read]
    dsimp only
    rw [if_neg (by omega), if_neg (by omega)]
  rw [searches]
  obtain ⟨looked, same, searched⟩ :=
    stretch_chain_searches first lost _ firstConsistent clst clst (by omega) (by omega)
  have whole : Relinked volume volume.link looked :=
    relinked_congr _ _ _ _ (relinked_trans _ _ _ _ _ firstSame same) firstSame.linked
  rcases searched with ⟨ncl, nclRange, free, found⟩ | ⟨full, answered⟩
  · have nclAbove := nclRange.1
    have nclBelow : ncl < volume.fs.nFatent := firstCount ▸ nclRange.2
    have isFree : volume.link ncl = 0 := by rw [← firstSame.linked ncl nclBelow]; exact free
    have count : looked.fs.nFatent = volume.fs.nFatent := by rw [whole.system]
    have kind : looked.fs.fsType = volume.fs.fsType := by rw [whole.system]
    have ends := end_mark_ends volume consistent.mounted
    have limited := consistent.mounted.limited
    obtain ⟨marked, put, linked⟩ := put_fat_links looked whole.mounted ncl 0x0FFFFFFF
      ⟨nclAbove, count ▸ nclBelow⟩
    have markedCount : marked.fs.nFatent = volume.fs.nFatent := by rw [linked.system]; exact count
    have markedKind : marked.fs.fsType = volume.fs.fsType := by rw [linked.system]; exact kind
    obtain ⟨after, putAgain, linkedAgain⟩ := put_fat_links marked linked.mounted clst ncl
      ⟨above, markedCount ▸ below⟩
    have relinked : Relinked volume (Function.update (Function.update volume.link ncl
        (0x0FFFFFFF % entryRange volume.fs.fsType)) clst ncl) after := by
      refine relinked_congr _ _ _ _ (relinked_trans _ _ _ _ _
        (relinked_trans _ _ _ _ _ whole linked) linkedAgain) (fun other otherBelow => ?_)
      have word : ncl % entryRange marked.fs.fsType = ncl := by
        rw [markedKind]
        exact Nat.mod_eq_of_lt (nclBelow.trans limited)
      rw [Function.update_apply, Function.update_apply, word]
      split
      · rfl
      · rw [linked.linked other (count ▸ otherBelow), Function.update_apply, Function.update_apply,
          whole.linked other otherBelow, kind]
    have answer : linkFree looked clst ncl = (ncl, after.countTaken ncl) := by
      rw [linkFree, put]
      simp only [true_and, ne_eq, Nat.pos_iff_ne_zero.mp (by omega : 0 < clst), not_false_eq_true,
        if_true, putAgain]
    have different : clst ≠ ncl := by
      rintro rfl
      omega
    have changed : volume.link clst ≠ 0 := by omega
    refine ⟨ncl, after.countTaken ncl, by rw [found, answer],
      count_taken_kept _ _ _ (relinked_kept _ _ _ relinked), Or.inr ⟨⟨nclAbove, nclBelow⟩, isFree,
      ?_⟩⟩
    refine consistent_taken volume after lost _ _ _ ncl consistent relinked
      (holds_stretch _ _ _ _ _ _ start clst ncl _ consistent.holds nclAbove nclBelow (by decide)
        isFree ends) ?_ ?_
    · have once := free_cells_taken volume.link 2 volume.fs.nFatent ncl nclAbove nclBelow
        (0x0FFFFFFF % entryRange volume.fs.fsType) isFree (by omega)
      have twice := free_cells_relinked (Function.update volume.link ncl
        (0x0FFFFFFF % entryRange volume.fs.fsType)) 2 volume.fs.nFatent clst above below ncl
        (by rw [Function.update_of_ne different]; exact changed) (by omega)
      rw [twice]
      exact once
    · rw [Function.update_of_ne (by omega), Function.update_of_ne (by omega),
        Function.update_of_ne (by omega), Function.update_of_ne (by omega)]
      exact ⟨rfl, rfl⟩
  · refine ⟨0, looked, answered, relinked_kept _ _ _ whole, Or.inl ⟨rfl, fun other otherRange => ?_,
      consistent_relinked _ _ _ _ consistent whole⟩⟩
    rw [← firstSame.linked other otherRange.2]
    exact full other ⟨otherRange.1, firstCount ▸ otherRange.2⟩

end EffiLib.FatFs
