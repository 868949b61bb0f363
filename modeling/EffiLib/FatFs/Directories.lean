import EffiLib.FatFs.FileSync

/-!
# Directories

A directory is a table of entries of 32 bytes. The root directory of a FAT12 or FAT16 volume is
a static table, every other one a chain of clusters that is stretched when it is full. An object
of a directory steps through the entries; a name in it is searched for up to the first entry
that was never used, and an entry is taken from the first that is blank or deleted.
-/

namespace EffiLib.FatFs

open Buffers Sectors LittleEndian

/-- `SZ_DIR`. It is the size of an entry. -/
def szDir : Nat := 32

/-- The entries of a sector. No entry lies across two sectors. -/
def dirsPerSector : Nat := sectorSize / szDir

/-- `DDE`: the first byte of a deleted entry. Such an entry may be taken again. -/
def dde : u8 := 0xE5

/-- `AM_VOL`: the attribute of a volume label. An entry with it is no file. -/
def amVol : u8 := 0x08

/-- The directory object. `dir` is an offset in the window. `fn` is the name that is looked
for. -/
structure DIR where
  index : Nat
  sclust : Nat
  clust : Nat
  sect : Nat
  dir : Nat
  fn : List u8

/-- The directory object at an entry of its sector. Cluster and sector are those it had. -/
def DIR.enter (dj : DIR) (i : Nat) : DIR :=
  { dj with index := i, dir := i % dirsPerSector * szDir }

/-- The loop of `dir_sdi` that follows the chain of a table. Each pass takes the entries of a
cluster from the index. -/
def followTable : Nat → Volume → Nat → Nat → Run (FResult × Nat × Nat × Volume)
  | 0, _, _, _ => .error .unfinished
  | fuel + 1, volume, clst, idx =>
    let ic := dirsPerSector * volume.fs.csize % 2 ^ 16
    if idx ≥ ic then
      let (clst, volume) := getFat volume clst
      if clst = unknown then .ok (.diskErr, clst, idx, volume)
      else if clst < 2 ∨ clst ≥ volume.fs.nFatent then .ok (.intErr, clst, idx, volume)
      else followTable fuel volume clst (idx - ic)
    else .ok (.ok, clst, idx, volume)

/-- The branch of `dir_sdi` for a static table. A static table has no clusters. -/
def sdiStatic (volume : Volume) (dj : DIR) (idx : Nat) : FResult × DIR :=
  let dj := { dj with clust := 0 }
  if idx ≥ volume.fs.nRootdir then (.intErr, dj)
  else
    (.ok, { dj with
      sect := dwordSum volume.fs.dirbase (idx / dirsPerSector)
      dir := idx % dirsPerSector * szDir })

/-- The branch of `dir_sdi` for a dynamic table. The object keeps what it had where this fails. -/
def sdiDynamic (volume : Volume) (dj : DIR) (clst idx : Nat) :
    Run (FResult × DIR × Volume) := do
  let (res, clst, idx, volume) ← followTable (idx + 1) volume clst idx
  if res = .ok then
    .ok (.ok, { dj with
      clust := clst
      sect := dwordSum (clust2sect volume.fs clst) (idx / dirsPerSector)
      dir := idx % dirsPerSector * szDir }, volume)
  else .ok (res, dj, volume)

/-- `dir_sdi`. The first cluster of the directory decides between its branches. -/
def dirSdi (volume : Volume) (dj : DIR) (idx : Nat) : Run (FResult × DIR × Volume) :=
  let dj := { dj with index := idx }
  let clst := dj.sclust
  if clst = 1 ∨ clst ≥ volume.fs.nFatent then .ok (.intErr, dj, volume)
  else
    let clst := if clst = 0 ∧ volume.fs.fsType = .fat32 then volume.fs.dirbase else clst
    if clst = 0 then
      let (res, dj) := sdiStatic volume dj idx
      .ok (res, dj, volume)
    else sdiDynamic volume dj clst idx

/-- The loop of `dir_next` that fills a new cluster with zeros, through the window. Each pass
writes the sector it has filled by moving the window. -/
def clearTable : Nat → Volume → FResult × Volume
  | 0, volume => (.ok, volume)
  | c + 1, volume =>
    match moveWindow volume.marked 0 with
    | (.ok, volume) =>
      clearTable c
        { volume with fs := { volume.fs with winsect := dwordSum volume.fs.winsect 1 } }
    | (_, volume) => (.diskErr, volume)

/-- The part of `dir_next` that cleans up a stretched table. The window is at the first of its
sectors behind it. -/
def cleanTable (volume : Volume) (clst : Nat) : FResult × Volume :=
  match moveWindow volume 0 with
  | (.ok, volume) =>
    let sect := clust2sect volume.fs clst
    let blank : Volume :=
      { volume with fs := { volume.fs with win := List.replicate sectorSize 0, winsect := sect } }
    match clearTable volume.fs.csize blank with
    | (.ok, volume) => (.ok, { volume with fs := { volume.fs with winsect := sect } })
    | (res, volume) => (res, volume)
  | (_, volume) => (.diskErr, volume)

/-- The part of `dir_next` that stretches a dynamic table. A volume without a free cluster denies
it. -/
def stretchTable (volume : Volume) (clust : Nat) : Run (FResult × Nat × Volume) := do
  let (clst, volume) ← createChain volume clust
  if clst = 0 then .ok (.denied, clst, volume)
  else if clst = 1 then .ok (.intErr, clst, volume)
  else if clst = unknown then .ok (.diskErr, clst, volume)
  else
    let (res, volume) := cleanTable volume clst
    .ok (res, clst, volume)

/-- The part of `dir_next` that goes to the next cluster of a dynamic table. The end of the chain
is the end of the table, unless it may be stretched. -/
def nextTable (volume : Volume) (clust : Nat) (stretch : Bool) : Run (FResult × Nat × Volume) :=
  let (clst, volume) := getFat volume clust
  if clst ≤ 1 then .ok (.intErr, clst, volume)
  else if clst = unknown then .ok (.diskErr, clst, volume)
  else if clst ≥ volume.fs.nFatent then
    if stretch then stretchTable volume clust else .ok (.noFile, clst, volume)
  else .ok (.ok, clst, volume)

/-- The part of `dir_next` for the first entry of another sector of a dynamic table. The cluster
changes only at its last sector. -/
def nextDynamic (volume : Volume) (dj : DIR) (i : Nat) (stretch : Bool) :
    Run (FResult × DIR × Volume) :=
  if (i / dirsPerSector) &&& (volume.fs.csize - 1) = 0 then do
    let (res, clst, volume) ← nextTable volume dj.clust stretch
    if res = .ok then
      .ok (.ok, { dj with clust := clst, sect := clust2sect volume.fs clst }.enter i, volume)
    else .ok (res, dj, volume)
  else .ok (.ok, dj.enter i, volume)

/-- `dir_next`. An index that wraps ends the table. -/
def dirNext (volume : Volume) (dj : DIR) (stretch : Bool) : Run (FResult × DIR × Volume) :=
  let i := (dj.index + 1) % 2 ^ 16
  if i = 0 ∨ dj.sect = 0 then .ok (.noFile, dj, volume)
  else if i % dirsPerSector = 0 then
    let dj := { dj with sect := dwordSum dj.sect 1 }
    if dj.clust = 0 then
      if i ≥ volume.fs.nRootdir then .ok (.noFile, dj, volume) else .ok (.ok, dj.enter i, volume)
    else nextDynamic volume dj i stretch
  else .ok (.ok, dj.enter i, volume)

/-- The entry of a directory object in the window. It has 32 bytes. -/
def DIR.entry (dj : DIR) (win : List u8) : List u8 := (win.drop dj.dir).take szDir

/-- The loop of `dir_find` and `dir_register`: from entry to entry until one ends it, with the
result that it gives. -/
def scanTable (ends : List u8 → Option FResult) (stretch : Bool) :
    Nat → Volume → DIR → Run (FResult × DIR × Volume)
  | 0, _, _ => .error .unfinished
  | fuel + 1, volume, dj =>
    match moveWindow volume dj.sect with
    | (.ok, volume) =>
      match ends (dj.entry volume.fs.win) with
      | some res => .ok (res, dj, volume)
      | none => do
        let (res, dj, volume) ← dirNext volume dj stretch
        if res = .ok then scanTable ends stretch fuel volume dj else .ok (res, dj, volume)
    | (res, volume) => .ok (res, dj, volume)

/-- What ends the loop of `dir_find`: the end of the table, or an entry of the name that is no
volume label. -/
def namedEntry (fn : List u8) (dir : List u8) : Option FResult :=
  if byteAt dir 0 = 0 then some .noFile
  else if byteAt dir dirAttr &&& amVol = 0 ∧ dir.take 11 = fn then some .ok
  else none

/-- What ends the loop of `dir_register`: a blank entry. A deleted one counts as blank. -/
def blankEntry (dir : List u8) : Option FResult :=
  if byteAt dir 0 = dde ∨ byteAt dir 0 = 0 then some .ok else none

/-- The passes of such a loop are fewer than the indices. A table is at its end by then. -/
def maxEntries : Nat := 2 ^ 16

/-- Begin at the first entry and scan. All loops over a directory are this one, with their own
ends. -/
def scanFromStart (ends : List u8 → Option FResult) (stretch : Bool) (volume : Volume)
    (dj : DIR) : Run (FResult × DIR × Volume) := do
  let (res, dj, volume) ← dirSdi volume dj 0
  if res = .ok then scanTable ends stretch maxEntries volume dj else .ok (res, dj, volume)

/-- `dir_find`. It stops at the first entry that was never used. -/
def dirFind (volume : Volume) (dj : DIR) : Run (FResult × DIR × Volume) :=
  scanFromStart (namedEntry dj.fn) false volume dj

/-- Put bytes into the entry of a directory object. The other entries of its sector stay. -/
def putEntry (volume : Volume) (dj : DIR) (bytes : List u8) : FResult × Volume :=
  match moveWindow volume dj.sect with
  | (.ok, volume) => (.ok, volume.modified (overwrite volume.fs.win dj.dir bytes))
  | (res, volume) => (res, volume)

/-- `dir_register`. The entry is cleared behind the name. The table may be stretched for it. -/
def dirRegister (volume : Volume) (dj : DIR) : Run (FResult × DIR × Volume) := do
  let (res, dj, volume) ← scanFromStart blankEntry true volume dj
  if res = .ok then
    let (res, volume) := putEntry volume dj (dj.fn ++ List.replicate (szDir - 11) 0)
    .ok (res, dj, volume)
  else .ok (res, dj, volume)

/-- `dir_remove`. Its other bytes stay. -/
def dirRemove (volume : Volume) (dj : DIR) : Run (FResult × DIR × Volume) := do
  let (res, dj, volume) ← dirSdi volume dj dj.index
  if res = .ok then
    let (res, volume) := putEntry volume dj [dde]
    .ok (res, dj, volume)
  else .ok (res, dj, volume)

end EffiLib.FatFs
