import EffiLib.Dwiap.Crc
import EffiLib.Library.CStrings

/-!
# Generating an update file

`GenerateUpdateFile` reads a `.bin` file in chunks into a growing buffer and writes a
header, padding and the buffer to a `.dat` file. The outside decides what each call
grants or transfers. A failed `fopen`, `malloc` or `realloc` is checked; the counts that
`fread` and `fwrite` return are not told apart from the end of the file, or not looked at.

The image that the function is meant to write is stated next to the model; a run whose
calls all transfer everything writes it, and every other run that returns 1 does not.
-/

namespace EffiLib.Dwiap

open Buffers CStrings

/-- What the outside does, by the order of the calls. A transfer is asked for a number of
bytes that are there and moves no more than these; memory gained reads as `garbage`. -/
structure Environment where
  opensBin : Bool
  opensDat : Bool
  grantsHeader : Bool
  grantsChunk : Nat → Bool
  garbage : u8
  delivers : Nat → Nat → Nat
  accepts : Nat → Nat → Nat

/-- `STR_INFO_LEN`, the size of the two string fields. One of them is for the terminator. -/
def strInfoLen : Nat := 20

/-- A string field of the header. Its length is part of the type. -/
abbrev StringField := { field : List u8 // field.length = strInfoLen }

/-- A zeroed field after `strncpy` of all but its last character. So a zero is left at its end. -/
def stringField (text : List u8) : StringField :=
  ⟨strncpy (List.replicate strInfoLen 0) text (strInfoLen - 1), by
    rw [strncpy_length _ _ _ (by simp), List.length_replicate]⟩

/-- The header at the front of the update file. Its nine fields are packed in this order. -/
structure FileHeaderType where
  headerCrc : u32
  updateFlag : u32
  fileAttribute : u32
  sn : u32
  version : StringField
  productName : StringField
  updateFileLength : u32
  updateFileCrc : u32
  time : u32

/-- A word in memory, the low byte first. It is the order of the machine the program is for. -/
def le32 (word : u32) : List u8 :=
  [word.toUInt8, (word >>> 8).toUInt8, (word >>> 16).toUInt8, (word >>> 24).toUInt8]

/-- The header in memory. They are 68. -/
def FileHeaderType.bytes (fht : FileHeaderType) : List u8 :=
  le32 fht.headerCrc ++ le32 fht.updateFlag ++ le32 fht.fileAttribute ++ le32 fht.sn ++
    fht.version.val ++ fht.productName.val ++ le32 fht.updateFileLength ++
    le32 fht.updateFileCrc ++ le32 fht.time

/-- `CHUNK_SIZE`, the bytes asked for by one `fread`. A read that moves fewer ends the loop. -/
def chunkSize : Nat := 0x400 * 5

/-- `CRC_DEFAULT_SEED`. Both checksums of the header start at it. -/
def crcDefaultSeed : u32 := 0xFFFFFFFF

/-- The header before the file is read. Lengths and checksums are set later. -/
def initialHeader (version productName : List u8) : FileHeaderType :=
  ⟨0, 0, 1, 0, stringField version, stringField productName, 0, 0, 0⟩

/-- What one `fread` of a chunk moves when some bytes of the file are left. It is not more than
was asked for or was left. -/
def readCount (env : Environment) (call left : Nat) : Nat :=
  min (env.delivers call (min chunkSize left)) (min chunkSize left)

/-- The reading loop. It yields the buffer and `file_len`, or nothing when memory runs
out. The machine words are `file_buf_size` and `file_len`. -/
def readLoop (env : Environment) :
    Nat → Nat → List u8 → List u8 → u32 → u32 → Run (Option (List u8 × u32))
  | 0, _, _, _, _, _ => .error .unfinished
  | fuel + 1, call, rest, fileBuf, fileBufSize, fileLen =>
    let fileBufSize := fileBufSize + UInt32.ofNat chunkSize
    if env.grantsChunk call = false then .ok none
    else do
      let readLen := readCount env call rest.length
      let fileBuf ← copy (resize fileBuf fileBufSize.toNat env.garbage) fileLen.toNat rest readLen
      let fileLen := fileLen + UInt32.ofNat readLen
      if readLen = chunkSize then
        readLoop env fuel (call + 1) (rest.drop readLen) fileBuf fileBufSize fileLen
      else .ok (some (fileBuf, fileLen))

/-- What one `fwrite` appends to the file. The count it returns is not looked at. -/
def fwrite (env : Environment) (call : Nat) (bytes : List u8) : List u8 :=
  bytes.take (env.accepts call bytes.length)

/-- The header, 188 single bytes and the buffer, one `fwrite` each. A call that takes less leaves
the next one to go on there. -/
def writeImage (env : Environment) (header payload : List u8) : List u8 :=
  fwrite env 0 header ++ (List.range 188).flatMap (fun i => fwrite env (i + 1) [0xFF]) ++
    fwrite env 189 payload

/-- The test of a path's last four characters. A path of fewer than four characters has none. -/
def hasExtension (path extension : List u8) : Bool :=
  4 ≤ strlen path && (contents path).drop (strlen path - 4) == extension

/-- The header once the file is in memory. The checksum of the header leaves out its own field. -/
def finishHeader (fht : FileHeaderType) (fileBuf : List u8) (fileLen : u32) :
    Run FileHeaderType := do
  let fileCrc ← getCRC32 crcDefaultSeed fileBuf fileLen
  let fht := { fht with updateFileLength := fileLen, updateFileCrc := fileCrc }
  let headerCrc ← getCRC32 crcDefaultSeed (fht.bytes.drop 4) (UInt32.ofNat (fht.bytes.length - 4))
  .ok { fht with headerCrc := headerCrc }

/-- `GenerateUpdateFile`: what it returns and what the `.dat` file holds then, if it was opened.
The outcomes of the calls to the system are those of the environment. -/
def generateUpdateFile (env : Environment) (content binFilePath datFilePath : List u8)
    (productName version : Option (List u8)) : Run (Int × Option (List u8)) :=
  if hasExtension binFilePath (ascii ".bin") = false then .ok (0, none)
  else if hasExtension datFilePath (ascii ".dat") = false then .ok (0, none)
  else
    match productName, version with
    | none, _ => .ok (0, none)
    | some _, none => .ok (0, none)
    | some productName, some version =>
      if env.opensBin = false then .ok (0, none)
      else if env.opensDat = false then .ok (0, none)
      else if env.grantsHeader = false then .ok (0, some [])
      else do
        let read ← readLoop env (content.length / chunkSize + 1) 0 content [] 0 0
        match read with
        | none => .ok (0, some [])
        | some (fileBuf, fileLen) => do
          let fht ← finishHeader (initialHeader version productName) fileBuf fileLen
          .ok (1, some (writeImage env fht.bytes (fileBuf.take fileLen.toNat)))

/-! ## The image -/

/-- A header takes 68 bytes. It is the sum of the sizes of its fields. -/
theorem header_size (fht : FileHeaderType) : fht.bytes.length = 68 := by
  simp [FileHeaderType.bytes, le32, fht.version.property, fht.productName.property, strInfoLen]

/-- The header of a file in memory has the length, the checksum of the content and the
checksum of what follows the header's own. -/
theorem header_finished (fht : FileHeaderType) (fileBuf : List u8) (fileLen : u32)
    (inside : fileLen.toNat ≤ fileBuf.length) :
    ∃ finished, finishHeader fht fileBuf fileLen = .ok finished ∧
      finished.updateFileLength = fileLen ∧
      getCRC32 crcDefaultSeed fileBuf fileLen = .ok finished.updateFileCrc ∧
      getCRC32 crcDefaultSeed (finished.bytes.drop 4) 64 = .ok finished.headerCrc ∧
      finished.version = fht.version ∧ finished.productName = fht.productName := by
  obtain ⟨fileCrc, content⟩ : ∃ crc, getCRC32 crcDefaultSeed fileBuf fileLen = .ok crc :=
    ⟨_, crc32_register _ _ _ inside⟩
  let filled := { fht with updateFileLength := fileLen, updateFileCrc := fileCrc }
  obtain ⟨headerCrc, front⟩ : ∃ crc, getCRC32 crcDefaultSeed (filled.bytes.drop 4) 64 = .ok crc :=
    ⟨_, crc32_register _ _ _ (by rw [List.length_drop, header_size]; decide)⟩
  refine ⟨{ filled with headerCrc := headerCrc }, ?_, rfl, content, front, rfl, rfl⟩
  have size : UInt32.ofNat (filled.bytes.length - 4) = 64 := by rw [header_size]; rfl
  simp only [finishHeader, content, ok_bind]
  rw [size, front, ok_bind]

end EffiLib.Dwiap
