import EffiLib.FatFs.ChainRuns
import EffiLib.FatFs.Sync
import EffiLib.Library.PlacedBytes

/-!
# Open files

An open file has a pointer into its bytes, the cluster of the byte in front of the pointer, and
a buffer of one sector. `f_read` and `f_write` move whole sectors between the disk and the
caller and the rest through the buffer; `f_lseek` follows the chain of clusters, and stretches it
where the file may be written; `f_truncate` cuts it at the pointer; `f_sync` writes the buffer
and the directory entry. The lock of a shared file system and the fast seek are not configured.
-/

namespace EffiLib.FatFs

open Buffers Sectors BlockCache LittleEndian

/-- The file object, with the bits of its flags. `dsect` is zero while the buffer holds
nothing. -/
structure FIL where
  id : Nat
  faRead : Bool
  faWrite : Bool
  faWritten : Bool
  faDirty : Bool
  faError : Bool
  fptr : Nat
  fsize : Nat
  sclust : Nat
  clust : Nat
  dsect : Nat
  dirSect : Nat
  dirPtr : Nat
  buf : List u8

/-- A file object with the volume that it lies on. Several objects may lie on one volume. -/
structure OpenFile where
  volume : Volume
  fp : FIL

/-- `validate`. The disk has no status but success. An object that was opened before the volume
was mounted again is refused. -/
def validate (fs : FATFS) (id : Nat) : FResult :=
  if fs.fsType = .unmounted ∨ fs.id ≠ id then .invalidObject else .ok

/-- `ABORT`: no further access of the file. Every later call answers with an error. -/
def OpenFile.abort (file : OpenFile) : OpenFile :=
  { file with fp := { file.fp with faError := true } }

/-- The sector of the pointer inside its cluster. It is cut to a byte, as the source's variable is
one. -/
def OpenFile.csect (file : OpenFile) : Nat :=
  (file.fp.fptr / sectorSize &&& dwordDiff file.volume.fs.csize 1) % 256

/-- The pointer behind so many more bytes. The sum may wrap, as far as this definition goes. -/
def OpenFile.advance (file : OpenFile) (count : Nat) : OpenFile :=
  { file with fp := { file.fp with fptr := dwordSum file.fp.fptr count } }

/-- Write a dirty buffer to its sector. A clean one is left. -/
def OpenFile.writeBackBuf (file : OpenFile) : FResult × OpenFile :=
  if file.fp.faDirty then
    match diskWrite file.volume.pDisk0 file.fp.buf (UInt32.ofNat file.fp.dsect) 1
        file.volume.beyond with
    | (.ok, pDisk0) =>
      (.ok, ⟨{ file.volume with pDisk0 }, { file.fp with faDirty := false }⟩)
    | (_, pDisk0) => (.diskErr, { file with volume := { file.volume with pDisk0 } })
  else (.ok, file)

/-- Read a sector into the buffer. Which sector it is is noted by the caller. -/
def OpenFile.fillBuf (file : OpenFile) (sect : Nat) : FResult × OpenFile :=
  let (res, buffer, pDisk0) := diskRead file.volume.pDisk0 (UInt32.ofNat sect) 1
  (if res = .ok then .ok else .diskErr,
    ⟨{ file.volume with pDisk0 }, { file.fp with buf := overwrite file.fp.buf 0 buffer }⟩)

/-- Write a dirty buffer back and read another sector into it. Where that fails the object still
names the old one. -/
def OpenFile.exchangeBuf (file : OpenFile) (sect : Nat) : FResult × OpenFile :=
  match file.writeBackBuf with
  | (.ok, written) =>
    match written.fillBuf sect with
    | (.ok, filled) => (.ok, { filled with fp := { filled.fp with dsect := sect } })
    | (res, failed) => (res, failed)
  | (res, failed) => (res, failed)

/-- The sectors that are moved at once: whole ones, up to the end of the cluster. The next cluster
may lie anywhere. -/
def OpenFile.contiguous (file : OpenFile) (bytes : Nat) : Nat :=
  let cc := bytes / sectorSize
  if file.csect + cc > file.volume.fs.csize then dwordDiff file.volume.fs.csize file.csect else cc

/-! ## Reading -/

/-- The cluster of the pointer, on a sector boundary. Inside a cluster it is known already. -/
def OpenFile.readCluster (file : OpenFile) : FResult × OpenFile :=
  if file.csect = 0 then
    let (clst, volume) :=
      if file.fp.fptr = 0 then (file.fp.sclust, file.volume)
      else getFat file.volume file.fp.clust
    if clst < 2 then (.intErr, { file with volume })
    else if clst = 0xFFFFFFFF then (.diskErr, { file with volume })
    else (.ok, ⟨volume, { file.fp with clust := clst }⟩)
  else (.ok, file)

/-- Read whole sectors past the buffer. What the buffer has changed of them is put in. The buffer
itself stays as it is. -/
def OpenFile.readDirect (file : OpenFile) (sect cc : Nat) : FResult × List u8 × OpenFile :=
  match diskRead file.volume.pDisk0 (UInt32.ofNat sect) (UInt8.ofNat cc) with
  | (.ok, rbuff, pDisk0) =>
    let place := dwordDiff file.fp.dsect sect
    (.ok, if file.fp.faDirty ∧ place < cc then overwrite rbuff (sectorSize * place) file.fp.buf
      else rbuff, { file with volume := { file.volume with pDisk0 } })
  | (_, _, pDisk0) => (.diskErr, [], { file with volume := { file.volume with pDisk0 } })

/-- The bytes from the pointer on, out of the buffer. They end with the sector. -/
def OpenFile.readBuf (file : OpenFile) (btr : Nat) : List u8 :=
  let offset := file.fp.fptr % sectorSize
  (file.fp.buf.drop offset).take (min (sectorSize - offset) btr)

/-- The pass of the loop of `f_read` from the start of a sector on. Whole sectors go past the
buffer. -/
def OpenFile.readSector (file : OpenFile) (btr : Nat) : FResult × List u8 × OpenFile :=
  let first := clust2sect file.volume.fs file.fp.clust
  if first = 0 then (.intErr, [], file)
  else
    let sect := dwordSum first file.csect
    if btr / sectorSize ≠ 0 then file.readDirect sect (file.contiguous btr)
    else if file.fp.dsect ≠ sect then
      match file.exchangeBuf sect with
      | (.ok, loaded) => (.ok, loaded.readBuf btr, loaded)
      | (res, failed) => (res, [], failed)
    else (.ok, file.readBuf btr, file)

/-- The body of the loop of `f_read`. The pointer is moved by the caller. -/
def OpenFile.readStep (file : OpenFile) (btr : Nat) : FResult × List u8 × OpenFile :=
  if file.fp.fptr % sectorSize = 0 then
    match file.readCluster with
    | (.ok, placed) => placed.readSector btr
    | (res, failed) => (res, [], failed)
  else (.ok, file.readBuf btr, file)

/-- The loop of `f_read`, with what was read so far. The fuel is one more than the bytes asked
for. -/
def OpenFile.readLoop : Nat → OpenFile → Nat → List u8 → Run (FResult × List u8 × OpenFile)
  | 0, _, _, _ => .error .unfinished
  | fuel + 1, file, btr, done =>
    if btr = 0 then .ok (.ok, done, file)
    else
      match file.readStep btr with
      | (.ok, data, after) =>
        readLoop fuel (after.advance data.length) (btr - data.length) (done ++ data)
      | (res, _, failed) => .ok (res, done, failed.abort)

/-- `f_read`, with the bytes read. Fewer are read where the file ends. -/
def fRead (file : OpenFile) (btr : Nat) : Run (FResult × List u8 × OpenFile) :=
  match validate file.volume.fs file.fp.id with
  | .ok =>
    if file.fp.faError then .ok (.intErr, [], file)
    else if ¬ file.fp.faRead then .ok (.denied, [], file)
    else
      let remain := dwordDiff file.fp.fsize file.fp.fptr
      let btr := if btr > remain then remain else btr
      file.readLoop (btr + 1) btr []
  | res => .ok (res, [], file)

/-! ## Writing -/

/-- How a pass of the loop of `f_write` ends: so many bytes are written, the volume is full, or
the file is aborted. -/
inductive Pass where
  | wrote (wcnt : Nat)
  | full
  | aborted (res : FResult)
deriving DecidableEq, Repr

/-- The cluster that begins at the pointer. The chain is stretched where it ends. -/
def OpenFile.nextCluster (file : OpenFile) : Run (Nat × OpenFile) :=
  if file.fp.fptr = 0 then
    if file.fp.sclust = 0 then do
      let (clst, volume) ← createChain file.volume 0
      .ok (clst, ⟨volume, { file.fp with sclust := clst }⟩)
    else .ok (file.fp.sclust, file)
  else do
    let (clst, volume) ← createChain file.volume file.fp.clust
    .ok (clst, { file with volume })

/-- The cluster of the pointer, on a sector boundary. On a cluster boundary the chain is followed
or made longer. -/
def OpenFile.writeCluster (file : OpenFile) : Run (Pass × OpenFile) :=
  if file.csect = 0 then do
    let (clst, placed) ← file.nextCluster
    if clst = 0 then .ok (.full, placed)
    else if clst = 1 then .ok (.aborted .intErr, placed)
    else if clst = 0xFFFFFFFF then .ok (.aborted .diskErr, placed)
    else .ok (.wrote 0, { placed with fp := { placed.fp with clust := clst } })
  else .ok (.wrote 0, file)

/-- Write whole sectors past the buffer. The buffer takes its sector from them. -/
def OpenFile.writeDirect (file : OpenFile) (wbuff : List u8) (sect cc : Nat) : Pass × OpenFile :=
  match diskWrite file.volume.pDisk0 wbuff (UInt32.ofNat sect) (UInt8.ofNat cc)
      file.volume.beyond with
  | (.ok, pDisk0) =>
    let place := dwordDiff file.fp.dsect sect
    (.wrote (sectorSize * cc), ⟨{ file.volume with pDisk0 },
      if place < cc then
        { file.fp with buf := sector sectorSize wbuff place, faDirty := false }
      else file.fp⟩)
  | (_, pDisk0) =>
    (.aborted .diskErr, { file with volume := { file.volume with pDisk0 } })

/-- Put bytes into the buffer from the pointer on. No more of them than the sector has room
for. -/
def OpenFile.writeBuf (file : OpenFile) (wbuff : List u8) : Pass × OpenFile :=
  let offset := file.fp.fptr % sectorSize
  let wcnt := min (sectorSize - offset) wbuff.length
  (.wrote wcnt, { file with fp := { file.fp with
    buf := overwrite file.fp.buf offset (wbuff.take wcnt), faDirty := true } })

/-- The buffer takes a sector. Behind the end of the file nothing is read. -/
def OpenFile.enterSector (file : OpenFile) (sect : Nat) : FResult × OpenFile :=
  let entered := { file with fp := { file.fp with dsect := sect } }
  if file.fp.dsect ≠ sect ∧ file.fp.fptr < file.fp.fsize then
    match file.fillBuf sect with
    | (.ok, filled) => (.ok, { filled with fp := { filled.fp with dsect := sect } })
    | (res, failed) => (res, failed)
  else (.ok, entered)

/-- The pass of the loop of `f_write` from the start of a sector on. Whole sectors go to the disk
directly, and a part goes through the buffer. -/
def OpenFile.writeSector (file : OpenFile) (wbuff : List u8) : Pass × OpenFile :=
  match file.writeBackBuf with
  | (.ok, flushed) =>
    let first := clust2sect flushed.volume.fs flushed.fp.clust
    if first = 0 then (.aborted .intErr, flushed)
    else
      let sect := dwordSum first flushed.csect
      if wbuff.length / sectorSize ≠ 0 then
        flushed.writeDirect wbuff sect (flushed.contiguous wbuff.length)
      else
        match flushed.enterSector sect with
        | (.ok, entered) => entered.writeBuf wbuff
        | (res, failed) => (.aborted res, failed)
  | (res, failed) => (.aborted res, failed)

/-- The body of the loop of `f_write`. The cluster is found on a sector boundary only. -/
def OpenFile.writeStep (file : OpenFile) (wbuff : List u8) : Run (Pass × OpenFile) :=
  if file.fp.fptr % sectorSize = 0 then do
    match ← file.writeCluster with
    | (.wrote _, placed) => .ok (placed.writeSector wbuff)
    | (stop, placed) => .ok (stop, placed)
  else .ok (file.writeBuf wbuff)

/-- The end of `f_write`: the size of the file. It grows up to the pointer, and the file is marked
as changed. -/
def OpenFile.written (file : OpenFile) : OpenFile :=
  { file with fp := { file.fp with
    fsize := if file.fp.fptr > file.fp.fsize then file.fp.fptr else file.fp.fsize,
    faWritten := true } }

/-- The loop of `f_write`, with the bytes that are left and the number of those written. It ends
when none is left, when the volume is full, or with an error. -/
def OpenFile.writeLoop : Nat → OpenFile → List u8 → Nat → Run (FResult × Nat × OpenFile)
  | 0, _, _, _ => .error .unfinished
  | fuel + 1, file, wbuff, bw =>
    if wbuff.length = 0 then .ok (.ok, bw, file.written)
    else do
      match ← file.writeStep wbuff with
      | (.wrote wcnt, after) =>
        writeLoop fuel (after.advance wcnt) (wbuff.drop wcnt) (bw + wcnt)
      | (.full, after) => .ok (.ok, bw, after.written)
      | (.aborted res, after) => .ok (res, bw, after.abort)

/-- `f_write`, with the number of bytes written. A file cannot reach 4 GB. Nothing is written
then. -/
def fWrite (file : OpenFile) (buff : List u8) : Run (FResult × Nat × OpenFile) :=
  match validate file.volume.fs file.fp.id with
  | .ok =>
    if file.fp.faError then .ok (.intErr, 0, file)
    else if ¬ file.fp.faWrite then .ok (.denied, 0, file)
    else
      let wbuff := if dwordSum file.fp.fsize buff.length < file.fp.fsize then [] else buff
      file.writeLoop (wbuff.length + 1) wbuff 0
  | res => .ok (res, 0, file)

/-! ## Seeking -/

/-- The cluster size in bytes. It is a whole number of sectors. -/
def clusterSize (fs : FATFS) : Nat := fs.csize * sectorSize

/-- The cluster behind one of a file. Where the file may be written the chain is stretched.
Elsewhere the entry is only read. -/
def OpenFile.seekCluster (file : OpenFile) (clst : Nat) : Run (Nat × Volume) :=
  if file.fp.faWrite then createChain file.volume clst
  else .ok (getFat file.volume clst)

/-- The loop of `f_lseek` that follows the chain, with the cluster and the offset in it. A full
volume ends it at the end of the last cluster. -/
def OpenFile.seekLoop : Nat → OpenFile → Nat → Nat → Run (FResult × Nat × Nat × OpenFile)
  | 0, _, _, _ => .error .unfinished
  | fuel + 1, file, clst, ofs =>
    let bcs := clusterSize file.volume.fs
    if ofs > bcs then do
      let (clst, volume) ← file.seekCluster clst
      if file.fp.faWrite ∧ clst = 0 then .ok (.ok, clst, bcs, { file with volume })
      else if clst = 0xFFFFFFFF then .ok (.diskErr, clst, ofs, { file with volume })
      else if clst ≤ 1 ∨ clst ≥ volume.fs.nFatent then
        .ok (.intErr, clst, ofs, { file with volume })
      else
        seekLoop fuel ⟨volume, { file.fp with clust := clst, fptr := dwordSum file.fp.fptr bcs }⟩
          clst (ofs - bcs)
    else .ok (.ok, clst, ofs, file)

/-- Where `f_lseek` starts: at the current cluster, or at the first one, which a file without
clusters gets. The pointer is then at the start of the cluster. -/
def OpenFile.seekStart (file : OpenFile) (ofs : Nat) : Run (FResult × Nat × Nat × OpenFile) :=
  let bcs := clusterSize file.volume.fs
  let ifptr := file.fp.fptr
  if ifptr > 0 ∧ (ofs - 1) / bcs ≥ (ifptr - 1) / bcs then
    let fptr := (ifptr - 1) &&& (0xFFFFFFFF ^^^ dwordDiff bcs 1)
    .ok (.ok, file.fp.clust, dwordDiff ofs fptr, { file with fp := { file.fp with fptr } })
  else
    let reset := { file with fp := { file.fp with fptr := 0 } }
    if file.fp.sclust = 0 then do
      let (clst, volume) ← createChain reset.volume 0
      if clst = 1 then .ok (.intErr, clst, ofs, { reset with volume })
      else if clst = 0xFFFFFFFF then .ok (.diskErr, clst, ofs, { reset with volume })
      else .ok (.ok, clst, ofs, ⟨volume, { reset.fp with sclust := clst, clust := clst }⟩)
    else
      .ok (.ok, file.fp.sclust, ofs, { reset with fp := { reset.fp with clust := file.fp.sclust } })

/-- The sector of an offset in a cluster, unless it is on a boundary. Zero stands for none. -/
def OpenFile.seekSector (file : OpenFile) (clst ofs : Nat) : FResult × Nat :=
  if ofs % sectorSize ≠ 0 then
    let nsect := clust2sect file.volume.fs clst
    if nsect = 0 then (.intErr, 0) else (.ok, dwordSum nsect (ofs / sectorSize))
  else (.ok, 0)

/-- The buffer takes the sector of the pointer, unless it is on a boundary. A sector that it has
is not read again. -/
def OpenFile.seekBuf (file : OpenFile) (nsect : Nat) : FResult × OpenFile :=
  if file.fp.fptr % sectorSize ≠ 0 ∧ nsect ≠ file.fp.dsect then file.exchangeBuf nsect
  else (.ok, file)

/-- The end of `f_lseek`: the file may have grown. Such a file is marked as changed. -/
def OpenFile.seekEnd (file : OpenFile) (nsect : Nat) : FResult × OpenFile :=
  match file.seekBuf nsect with
  | (.ok, placed) =>
    (.ok, if placed.fp.fptr > placed.fp.fsize then
        { placed with fp := { placed.fp with fsize := placed.fp.fptr, faWritten := true } }
      else placed)
  | (res, failed) => (res, failed.abort)

/-- `f_lseek` to an offset that is not zero. A file that got no cluster stays at zero. -/
def OpenFile.seekTo (file : OpenFile) (ofs : Nat) : Run (FResult × OpenFile) := do
  match ← file.seekStart ofs with
  | (.ok, clst, rest, started) =>
    if clst ≠ 0 then
      match ← started.seekLoop (rest + 1) clst rest with
      | (.ok, clst, rest, followed) =>
        let reached := followed.advance rest
        match reached.seekSector clst rest with
        | (.ok, nsect) => .ok (reached.seekEnd nsect)
        | (res, _) => .ok (res, reached.abort)
      | (res, _, _, failed) => .ok (res, failed.abort)
    else .ok (started.seekEnd 0)
  | (res, _, _, failed) => .ok (res, failed.abort)

/-- `f_lseek`. A file that may only be read is not left behind its end. -/
def fLseek (file : OpenFile) (ofs : Nat) : Run (FResult × OpenFile) :=
  match validate file.volume.fs file.fp.id with
  | .ok =>
    if file.fp.faError then .ok (.intErr, file)
    else
      let ofs := if ofs > file.fp.fsize ∧ ¬ file.fp.faWrite then file.fp.fsize else ofs
      if ofs = 0 then
        .ok (OpenFile.seekEnd { file with fp := { file.fp with fptr := 0 } } 0)
      else file.seekTo ofs
  | res => .ok (res, file)

/-! ## Truncating -/

/-- The part of `f_truncate` on a file that is longer than its pointer. At zero the whole chain is
given back. -/
def OpenFile.cut (file : OpenFile) : Run (FResult × OpenFile) :=
  let shorter := { file.fp with fsize := file.fp.fptr, faWritten := true }
  if file.fp.fptr = 0 then do
    let (res, volume) ← removeChain file.volume file.fp.sclust
    .ok (res, ⟨volume, { shorter with sclust := 0 }⟩)
  else do
    let (res, volume) ← truncateChain file.volume file.fp.clust
    .ok (res, ⟨volume, shorter⟩)

/-- `f_truncate`. A pointer behind the end cuts nothing. -/
def fTruncate (file : OpenFile) : Run (FResult × OpenFile) :=
  match validate file.volume.fs file.fp.id with
  | .ok =>
    if file.fp.faError then .ok (.intErr, file)
    else if ¬ file.fp.faWrite then .ok (.denied, file)
    else if file.fp.fsize > file.fp.fptr then do
      let (res, after) ← file.cut
      .ok (res, if res ≠ .ok then after.abort else after)
    else .ok (.ok, file)
  | res => .ok (res, file)

/-! ## Synchronizing and opening -/

/-- `DIR_Attr`, the offset of the attribute of a directory entry. It is one byte. -/
def dirAttr : Nat := 11

/-- `DIR_FstClusHI`. It is the upper half of the first cluster. -/
def dirFstClusHI : Nat := 20

/-- `DIR_WrtTime`. Time and date follow each other there. -/
def dirWrtTime : Nat := 22

/-- `DIR_FstClusLO`. It is the lower half of the first cluster. -/
def dirFstClusLO : Nat := 26

/-- `DIR_FileSize`. It is a double word. -/
def dirFileSize : Nat := 28

/-- `AM_ARC`. It is set whenever a file is changed. -/
def amArc : u8 := 0x20

/-- `LD_CLUST`. The two halves lie apart in the entry. -/
def ldClust (win : List u8) (dir : Nat) : Nat :=
  ldWord win (dir + dirFstClusHI) <<< 16 ||| ldWord win (dir + dirFstClusLO)

/-- `ST_CLUST`. The two halves lie apart in the entry. -/
def stClust (win : List u8) (dir cl : Nat) : List u8 :=
  stWord (stWord win (dir + dirFstClusLO) cl) (dir + dirFstClusHI) (cl >>> 16)

/-- The directory entry of a file, put into the window. The name and the other fields stay. -/
def recordEntry (win : List u8) (fp : FIL) (tim : Nat) : List u8 :=
  let win := win.set (fp.dirPtr + dirAttr) (byteAt win (fp.dirPtr + dirAttr) ||| amArc)
  let win := stDword win (fp.dirPtr + dirFileSize) fp.fsize
  let win := stClust win fp.dirPtr fp.sclust
  stDword win (fp.dirPtr + dirWrtTime) tim

/-- `f_sync` at some time. A file without the mark has nothing to save. -/
def fSync (file : OpenFile) (tim : Nat) : FResult × OpenFile :=
  match validate file.volume.fs file.fp.id with
  | .ok =>
    if file.fp.faWritten then
      match file.writeBackBuf with
      | (.ok, flushed) =>
        match moveWindow flushed.volume flushed.fp.dirSect with
        | (.ok, moved) =>
          let (res, synced) := sync { moved with fs := { moved.fs with
            win := recordEntry moved.fs.win flushed.fp tim, wflag := true } }
          (res, ⟨synced, { flushed.fp with faWritten := false }⟩)
        | (res, moved) => (res, { flushed with volume := moved })
      | (res, failed) => (res, failed)
    else (.ok, file)
  | res => (res, file)

/-- The end of `f_open` for an existing file, whose entry the window shows. The buffer may hold
anything, as `dsect` is zero. -/
def openEntry (fp : FIL) (volume : Volume) (faRead faWrite : Bool) (dir : Nat) : OpenFile :=
  ⟨volume, { fp with
    id := volume.fs.id, faRead, faWrite, faWritten := false, faDirty := false, faError := false,
    fptr := 0, fsize := ldDword volume.fs.win (dir + dirFileSize),
    sclust := ldClust volume.fs.win dir, dsect := 0, dirSect := volume.fs.winsect,
    dirPtr := dir }⟩

end EffiLib.FatFs
