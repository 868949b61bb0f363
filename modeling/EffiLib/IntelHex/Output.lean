import EffiLib.IntelHex.RecordLines

/-!
# Writing Intel HEX text

`intelHexFileOutput` walks the block list and prints every block as data records of
at most 16 or 32 bytes. A record ends at the next 64 KiB page, and an extended
linear address record is printed whenever the upper half of the address changed or
may change soon. The local arrays `buf` and `str` are arguments of the model: `buf`
by its size, `str` by whatever it holds at first.

A printed data record comes with the loop variables it was made from, so that one can
speak about them; only the lines go to the file.
-/

namespace EffiLib.IntelHex

open Buffers LinkedHeap Segments

/-- The local array `u8 str[80]`. Its length is part of the type, as no access goes past it. -/
structure TextBuffer where
  bytes : List u8
  size : bytes.length = 80

/-- A text array that happens to be zero. It is used for concrete runs. -/
def TextBuffer.zero : TextBuffer := ⟨List.replicate 80 0, List.length_replicate⟩

/-- What is printed: a control record, or a data record with the values of `addr`,
`offset`, `rest_len` and `data_len` at that moment. -/
inductive Printed where
  | control (line : List u8)
  | data (addr offset restLen dataLen : u32) (line : List u8)

/-- The line that goes to the file. The loop variables beside it do not. -/
def Printed.line : Printed → List u8
  | .control line => line
  | .data _ _ _ _ line => line

/-- `GetCheckSum`: the loop subtracts the bytes from zero. The result brings the sum of the bytes
to zero. -/
def getCheckSum (buf : List u8) (len : Nat) : Run u8 :=
  (List.range len).foldlM (fun cs index => do
    let byte ← load buf index
    .ok (cs - byte)) 0

/-- `BytesMapHexStr(str, buf, buf_len)` and printing the string behind a colon. `%s` stops at the
first zero. -/
def printRecord (str buf : List u8) (bufLen : u8) : Run (List u8 × List u8) := do
  let str ← bytesMapHexStr str buf bufLen.toUInt32
  .ok (str, code ':' :: (str.takeWhile (· ≠ 0) ++ [code '\n']))

/-- Filling `buf` with an extended linear address record. Its two data bytes are the upper half of
the address. -/
def linearAddressBuf (bufSize : Nat) (ulba : u32) : Run (List u8) := do
  let buf ← store (List.replicate bufSize (0 : u8)) 0 2
  let buf ← store buf 3 4
  let buf ← store buf 4 (ulba >>> 8).toUInt8
  let buf ← store buf 5 ulba.toUInt8
  let cs ← getCheckSum buf 6
  store buf 6 cs

/-- Filling `buf` with a data record; the result is the array and its used length. The copy ends
in front of the checksum, which has to fit as well. -/
def dataBuf (bufSize : Nat) (addr : u32) (data : List u8) (offset dataLen : u32) :
    Run (List u8 × u8) := do
  let buf ← store (List.replicate bufSize (0 : u8)) 0 dataLen.toUInt8
  let buf ← store buf 1 (addr >>> 8).toUInt8
  let buf ← store buf 2 addr.toUInt8
  let buf ← store buf 3 0
  let buf ← copy buf 4 (data.drop offset.toNat) dataLen.toNat
  let bufLen := (4 + dataLen).toUInt8
  let cs ← getCheckSum buf (4 + dataLen).toNat
  let buf ← store buf bufLen.toNat cs
  .ok (buf, bufLen + 1)

/-- Filling `buf` with a start linear address record. Its four data bytes are the start
address. -/
def startLinearBuf (bufSize : Nat) (address : u32) : Run (List u8) := do
  let buf ← store (List.replicate bufSize (0 : u8)) 0 4
  let buf ← store buf 3 5
  let buf ← store buf 4 (address >>> 24).toUInt8
  let buf ← store buf 5 (address >>> 16).toUInt8
  let buf ← store buf 6 (address >>> 8).toUInt8
  let buf ← store buf 7 address.toUInt8
  let cs ← getCheckSum buf 8
  store buf 8 cs

/-- Filling `buf` with the end-of-file record. It has no data. -/
def endOfFileBuf (bufSize : Nat) : Run (List u8) := do
  let buf ← store (List.replicate bufSize (0 : u8)) 0 0
  let buf ← store buf 3 1
  let cs ← getCheckSum buf 4
  store buf 4 cs

/-- The upper address changed, or the page ends within the next 255 bytes. The sum is taken in 32
bits and cannot wrap. -/
def needsLinear (addr ulba : u32) : Bool :=
  decide (addr >>> 16 ≠ ulba ∨ (addr &&& 0xFFFF) + 0xFF > 0x10000)

/-- `data_len`: the rest of the block or the maximum, cut at the page when the byte
behind the record would lie in another page. -/
def recordLength (addr restLen maxLen ulba : u32) : u32 :=
  let dataLen := if restLen > maxLen then maxLen else restLen
  if (addr + dataLen + 1) >>> 16 ≠ ulba then ((ulba + 1) <<< 16) - addr else dataLen

/-- The loop variables of the writer. The array `buf` is made anew in each pass. -/
structure Writer where
  current : Option Nat
  addr : u32
  restLen : u32
  offset : u32
  ulba : u32
  str : List u8

/-- The first part of a pass: the upper address the record is made under, and the
record that announces it, if one is needed. -/
def announce (bufSize : Nat) (writer : Writer) : Run (List u8 × u32 × List Printed) :=
  if needsLinear writer.addr writer.ulba then do
    let ulba := writer.addr >>> 16
    let buf ← linearAddressBuf bufSize ulba
    let (str, line) ← printRecord writer.str buf 7
    .ok (str, ulba, [.control line])
  else .ok (writer.str, writer.ulba, [])

/-- The last part of a pass: behind the record, or at the start of the next block. A null current
block ends the loop. -/
def advance (heap : Heap Block) (node : Node Block) (writer : Writer) (dataLen ulba : u32)
    (str : List u8) : Run Writer :=
  if writer.restLen - dataLen = 0 then
    match node.next with
    | none =>
      .ok ⟨none, writer.addr + dataLen, writer.restLen - dataLen, writer.offset + dataLen, ulba,
        str⟩
    | some next => do
      let following ← heap.read (some next)
      .ok ⟨some next, following.value.address, following.value.length, 0, ulba, str⟩
  else
    .ok ⟨writer.current, writer.addr + dataLen, writer.restLen - dataLen, writer.offset + dataLen,
      ulba, str⟩

/-- One pass of the loop, for a current block that is not null. It prints one data record, and an
address record in front where the upper half changes. -/
def writeStep (heap : Heap Block) (bufSize : Nat) (maxLen : u32) (writer : Writer) :
    Run (List Printed × Writer) := do
  let node ← heap.read writer.current
  let (str, ulba, linear) ← announce bufSize writer
  let dataLen := recordLength writer.addr writer.restLen maxLen ulba
  let (buf, bufLen) ← dataBuf bufSize writer.addr node.value.data writer.offset dataLen
  let (str, line) ← printRecord str buf bufLen
  let after ← advance heap node writer dataLen ulba str
  .ok (linear ++ [.data writer.addr writer.offset writer.restLen dataLen line], after)

/-- The loop over all blocks; the array `str` is used again behind it. A pass prints a part of a
block or the rest of it. -/
def writeLoop (heap : Heap Block) (bufSize : Nat) (maxLen : u32) :
    Nat → Writer → Run (List Printed × List u8)
  | 0, _ => .error .unfinished
  | fuel + 1, writer =>
    if writer.current = none then .ok ([], writer.str)
    else do
      let (printed, writer) ← writeStep heap bufSize maxLen writer
      let (later, str) ← writeLoop heap bufSize maxLen fuel writer
      .ok (printed ++ later, str)

/-- The longest data record, by the total length of the file. The source counts the bytes in front
of the loop. -/
def maxLength (ihf : IntelHexFormat) : u32 := if ihf.totalLength > 0xFFFF then 32 else 16

/-- `IntelHexFileOutput`. The size of `buf` is 37 in the source; `opened` says whether
the file could be created. -/
def intelHexFileOutput (heap : Heap Block) (ihf : IntelHexFormat) (bufSize fuel : Nat)
    (str : TextBuffer) (opened : Bool) : Run (Bool × List Printed) :=
  if ihf.endOfFile = false ∨ ihf.blockHead = none then .ok (false, [])
  else if opened = false then .ok (false, [])
  else do
    let head ← heap.read ihf.blockHead
    let (printed, str) ← writeLoop heap bufSize (maxLength ihf) fuel
      ⟨ihf.blockHead, head.value.address, head.value.length, 0, 0xFFFF, str.bytes⟩
    let (str, start) ← (if ihf.startLinearAddress ≠ 0xFFFFFFFF then do
        let buf ← startLinearBuf bufSize ihf.startLinearAddress
        let (str, line) ← printRecord str buf 9
        .ok (str, [Printed.control line])
      else .ok (str, []) : Run (List u8 × List Printed))
    let buf ← endOfFileBuf bufSize
    let (_, line) ← printRecord str buf 5
    .ok (true, printed ++ start ++ [.control line])

/-! ## Filling the record array -/

/-- The checksum loop stays inside the array and brings the sum to zero. The bytes behind those
that are summed may be anything. -/
theorem get_check_sum (bytes rest : List u8) :
    getCheckSum (bytes ++ rest) bytes.length = .ok (0 - checksum bytes) := by
  induction bytes using List.reverseRecOn generalizing rest with
  | nil => rfl
  | append_singleton front byte inductionHypothesis =>
    have reached : (front ++ [byte] ++ rest)[front.length]? = some byte := by simp
    have earlier := inductionHypothesis (byte :: rest)
    rw [getCheckSum] at earlier ⊢
    rw [List.length_append, List.length_singleton, List.range_succ, List.foldlM_append]
    rw [show front ++ [byte] ++ rest = front ++ byte :: rest by simp] at reached ⊢
    rw [earlier, ok_bind]
    simp only [List.foldlM_cons, List.foldlM_nil, load, reached, ok_bind, checksum_append,
      checksum_single]
    exact congrArg Except.ok (by grind)

/-- The last byte is stored behind the body and the rest of the array stays zero. So the array
holds the whole record then. -/
theorem store_checksum (kind : u8) (field : u16) (payload rest : List u8) (position : Nat)
    (behind : (recordBody kind field payload).length = position) :
    (do
      let cs ← getCheckSum (recordBody kind field payload ++ 0 :: rest) position
      store (recordBody kind field payload ++ 0 :: rest) position cs) =
      .ok (recordBytes kind field payload ++ rest) := by
  subst behind
  rw [get_check_sum, ok_bind, store_next _ rest 0 _ _ rfl, recordBytes, List.append_assoc]
  rfl

/-- The bytes of the record that announces an upper address. The payload has two bytes. -/
def linearBytes (ulba : u32) : List u8 := recordBytes 4 0 [(ulba >>> 8).toUInt8, ulba.toUInt8]

/-- A linear address record spells the upper half of the address. The array has to have room for
its seven bytes. -/
theorem linear_address_buf (bufSize : Nat) (ulba : u32) (room : 7 ≤ bufSize) :
    linearAddressBuf bufSize ulba = .ok (linearBytes ulba ++ List.replicate (bufSize - 7) 0) := by
  obtain ⟨rest, rfl⟩ := Nat.exists_eq_add_of_le room
  have zeros : List.replicate (7 + rest) (0 : u8) =
      0 :: 0 :: 0 :: 0 :: 0 :: 0 :: 0 :: List.replicate rest 0 := by
    rw [Nat.add_comm]
    rfl
  have filled := store_checksum 4 0 [(ulba >>> 8).toUInt8, ulba.toUInt8] (List.replicate rest 0) 6
    rfl
  rw [linearAddressBuf, linearBytes, zeros, Nat.add_sub_cancel_left]
  simpa [store, recordBody] using filled

/-- A start record spells the whole address. The array has to have room for its nine bytes. -/
theorem start_linear_buf (bufSize : Nat) (address : u32) (room : 9 ≤ bufSize) :
    startLinearBuf bufSize address =
      .ok (recordBytes 5 0 [(address >>> 24).toUInt8, (address >>> 16).toUInt8,
        (address >>> 8).toUInt8, address.toUInt8] ++ List.replicate (bufSize - 9) 0) := by
  obtain ⟨rest, rfl⟩ := Nat.exists_eq_add_of_le room
  have zeros : List.replicate (9 + rest) (0 : u8) =
      0 :: 0 :: 0 :: 0 :: 0 :: 0 :: 0 :: 0 :: 0 :: List.replicate rest 0 := by
    rw [Nat.add_comm]
    rfl
  have filled := store_checksum 5 0 [(address >>> 24).toUInt8, (address >>> 16).toUInt8,
    (address >>> 8).toUInt8, address.toUInt8] (List.replicate rest 0) 8 rfl
  rw [startLinearBuf, zeros, Nat.add_sub_cancel_left]
  simpa [store, recordBody] using filled

/-- The end-of-file record has no payload. Its sum is completed by the byte 0xFF. -/
theorem end_of_file_buf (bufSize : Nat) (room : 5 ≤ bufSize) :
    endOfFileBuf bufSize = .ok (recordBytes 1 0 [] ++ List.replicate (bufSize - 5) 0) := by
  obtain ⟨rest, rfl⟩ := Nat.exists_eq_add_of_le room
  have zeros : List.replicate (5 + rest) (0 : u8) =
      0 :: 0 :: 0 :: 0 :: 0 :: List.replicate rest 0 := by
    rw [Nat.add_comm]
    rfl
  have filled := store_checksum 1 0 [] (List.replicate rest 0) 4 rfl
  rw [endOfFileBuf, zeros, Nat.add_sub_cancel_left]
  simpa [store, recordBody] using filled

/-- The two address bytes of a data record are those of the low half of the address. The source
takes them from the address itself. -/
theorem low_half_bytes (addr : u32) : (addr.toUInt16 >>> 8).toUInt8 = (addr >>> 8).toUInt8 ∧
    addr.toUInt16.toUInt8 = addr.toUInt8 := by
  constructor
  · rw [← UInt8.toNat_inj]
    simp only [UInt16.toNat_toUInt8, UInt16.toNat_shiftRight, UInt32.toNat_toUInt16,
      UInt32.toNat_toUInt8, UInt32.toNat_shiftRight, UInt16.reduceToNat, UInt32.reduceToNat,
      Nat.reduceMod, Nat.shiftRight_eq_div_pow]
    omega
  · rw [← UInt8.toNat_inj]
    simp only [UInt16.toNat_toUInt8, UInt32.toNat_toUInt16, UInt32.toNat_toUInt8]
    omega

/-- A data record that fits `buf` and stays inside the block spells its bytes. The count is that
of the record, the sum is its last byte. -/
theorem data_buf (bufSize : Nat) (addr : u32) (data : List u8) (offset dataLen : u32)
    (short : dataLen.toNat ≤ 250) (room : dataLen.toNat + 5 ≤ bufSize)
    (inside : offset.toNat + dataLen.toNat ≤ data.length) :
    dataBuf bufSize addr data offset dataLen =
      .ok (recordBytes 0 addr.toUInt16 ((data.drop offset.toNat).take dataLen.toNat) ++
        List.replicate (bufSize - (dataLen.toNat + 5)) 0, UInt8.ofNat (dataLen.toNat + 5)) := by
  generalize taken : (data.drop offset.toNat).take dataLen.toNat = payload
  have size : payload.length = dataLen.toNat := by
    rw [← taken, List.length_take, List.length_drop]
    omega
  obtain ⟨rest, rfl⟩ := Nat.exists_eq_add_of_le room
  have zeros : List.replicate (dataLen.toNat + 5 + rest) (0 : u8) =
      0 :: 0 :: 0 :: 0 :: List.replicate (dataLen.toNat + 1 + rest) 0 := by
    rw [show dataLen.toNat + 5 + rest = dataLen.toNat + 1 + rest + 4 by omega]
    rfl
  have count : dataLen.toUInt8 = UInt8.ofNat payload.length := by
    rw [size, ← UInt8.toNat_inj, UInt32.toNat_toUInt8, UInt8.toNat_ofNat']
  obtain ⟨high, low⟩ := low_half_bytes addr
  have copied : copy (dataLen.toUInt8 :: (addr >>> 8).toUInt8 :: addr.toUInt8 :: 0 ::
      List.replicate (dataLen.toNat + 1 + rest) 0) 4 (data.drop offset.toNat) dataLen.toNat =
      .ok (recordBody 0 addr.toUInt16 payload ++ 0 :: List.replicate rest 0) := by
    have fits : 4 + dataLen.toNat ≤ (dataLen.toUInt8 :: (addr >>> 8).toUInt8 :: addr.toUInt8 :: 0 ::
        List.replicate (dataLen.toNat + 1 + rest) 0).length ∧
        dataLen.toNat ≤ (data.drop offset.toNat).length := by
      simp only [List.length_cons, List.length_replicate, List.length_drop]
      omega
    have remaining : (dataLen.toUInt8 :: (addr >>> 8).toUInt8 :: addr.toUInt8 :: 0 ::
        List.replicate (dataLen.toNat + 1 + rest) (0 : u8)).drop (4 + dataLen.toNat) =
        0 :: List.replicate rest 0 := by
      rw [Nat.add_comm 4]
      simp only [List.drop_succ_cons, List.drop_replicate]
      rw [show dataLen.toNat + 1 + rest - dataLen.toNat = rest + 1 by omega]
      rfl
    rw [copy, if_pos fits, remaining, taken, recordBody, count, high, low]
    rfl
  have length : (4 + dataLen).toNat = dataLen.toNat + 4 := by
    have four : (4 : u32).toNat = 4 := rfl
    rw [UInt32.toNat_add, four]
    omega
  have lengthByte : (4 + dataLen).toUInt8.toNat = dataLen.toNat + 4 := by
    rw [UInt32.toNat_toUInt8, length]
    omega
  have behind : (4 + dataLen).toUInt8 + 1 = UInt8.ofNat (dataLen.toNat + 5) := by
    have one : (1 : u8).toNat = 1 := rfl
    rw [← UInt8.toNat_inj, UInt8.toNat_add, lengthByte, one, UInt8.toNat_ofNat']
  have filled := store_checksum 0 addr.toUInt16 payload (List.replicate rest 0) (dataLen.toNat + 4)
    (by simp [recordBody, size])
  rw [dataBuf, zeros, Nat.add_sub_cancel_left, store_inside _ _ _ (by simp), ok_bind,
    List.set_cons_zero, store_inside _ _ _ (by simp), ok_bind, store_inside _ _ _ (by simp),
    ok_bind, store_inside _ _ _ (by simp), ok_bind]
  simp only [List.set_cons_succ, List.set_cons_zero]
  rw [copied, ok_bind, length, lengthByte]
  have paired := congrArg (fun run : Run (List u8) =>
    run >>= fun buf => Except.ok (buf, UInt8.ofNat (dataLen.toNat + 5))) filled
  simp only [bind_assoc, ok_bind] at paired
  rw [behind]
  exact paired

/-- Printing a filled array prints the line that spells the record, whatever `str` held. The array
`str` has 80 bytes, which is room for 34 bytes of payload. -/
theorem print_record (str : List u8) (kind : u8) (field : u16) (payload rest : List u8)
    (size : str.length = 80) (short : payload.length ≤ 34) :
    ∃ changed, changed.length = 80 ∧
      printRecord str (recordBytes kind field payload ++ rest) (UInt8.ofNat (payload.length + 5)) =
        .ok (changed, spelledLine (recordBytes kind field payload)) := by
  have length := record_length kind field payload
  have counted : (UInt8.ofNat (payload.length + 5)).toUInt32.toNat = payload.length + 5 := by
    rw [UInt8.toNat_toUInt32, UInt8.toNat_ofNat']
    omega
  have printed := bytes_map_hex_str str (recordBytes kind field payload ++ rest)
    (UInt8.ofNat (payload.length + 5)).toUInt32 (by rw [counted, List.length_append]; omega)
    (by rw [counted]; omega) (by rw [counted]; omega)
  have taken : (recordBytes kind field payload ++ rest).take (payload.length + 5) =
      recordBytes kind field payload := List.take_left' length
  rw [counted, taken] at printed
  have plain : ∀ ch ∈ hexText (recordBytes kind field payload), ch ≠ 0 := fun ch member =>
    digit_nonzero ch (encodes_valid _ _ (hex_text_encodes _) ch member)
  refine ⟨_, ?_, by rw [printRecord, printed, ok_bind, printed_text _ _ plain]; rfl⟩
  rw [List.length_append, List.length_cons, hex_text_length, List.length_drop, length]
  omega

/-! ## One pass -/

/-- The bytes from an address to the end of its page. An address at the start of a page has a
whole page. -/
def pageRoom (address : Nat) : Nat := 65536 - address % 65536

/-- The length of a record in integer arithmetic. A record that would leave exactly one
byte of the page is made one byte longer. -/
def pieceLength (maxLen address rest : Nat) : Nat :=
  if pageRoom address ≤ min rest maxLen + 1 then pageRoom address else min rest maxLen

/-- The wrapping arithmetic of the record length computes the integer length. This includes the
byte that is added where one byte of the page would be left. -/
theorem record_length_exact (addr restLen maxLen : u32) (small : maxLen.toNat ≤ 32) :
    (recordLength addr restLen maxLen (addr >>> 16)).toNat =
      pieceLength maxLen.toNat addr.toNat restLen.toNat := by
  have addrBound := addr.toNat_lt
  have one : (1 : u32).toNat = 1 := rfl
  have chosen : (if restLen > maxLen then maxLen else restLen).toNat =
      min restLen.toNat maxLen.toNat := by
    by_cases long : restLen > maxLen
    · rw [if_pos long]
      have more := UInt32.lt_iff_toNat_lt.mp long
      omega
    · rw [if_neg long]
      have less := UInt32.le_iff_toNat_le.mp (UInt32.not_lt.mp long)
      omega
  generalize same : (if restLen > maxLen then maxLen else restLen) = dataLen at chosen
  have page : (addr >>> 16).toNat = addr.toNat / 65536 := by
    rw [UInt32.toNat_shiftRight]
    simp [Nat.shiftRight_eq_div_pow]
  have leaves : (addr + dataLen + 1) >>> 16 ≠ addr >>> 16 ↔
      pageRoom addr.toNat ≤ dataLen.toNat + 1 := by
    rw [ne_eq, ← UInt32.toNat_inj, page, UInt32.toNat_shiftRight, UInt32.toNat_add,
      UInt32.toNat_add, one]
    simp only [UInt32.reduceToNat, Nat.reduceMod, Nat.shiftRight_eq_div_pow, pageRoom]
    omega
  have distance : (((addr >>> 16 + 1) <<< 16) - addr).toNat = pageRoom addr.toNat := by
    rw [UInt32.toNat_sub, UInt32.toNat_shiftLeft, UInt32.toNat_add, page, one]
    simp only [UInt32.reduceToNat, Nat.reduceMod, Nat.shiftLeft_eq, pageRoom]
    omega
  have unfolded : recordLength addr restLen maxLen (addr >>> 16) =
      if (addr + dataLen + 1) >>> 16 ≠ addr >>> 16 then ((addr >>> 16 + 1) <<< 16) - addr else
        dataLen := by
    rw [← same]
    rfl
  rw [unfolded, pieceLength, ← chosen]
  by_cases cut : pageRoom addr.toNat ≤ dataLen.toNat + 1
  · rw [if_pos (leaves.mpr cut), if_pos cut, distance]
  · rw [if_neg (fun left => cut (leaves.mp left)), if_neg cut]

/-- The upper address is always announced correctly, in at most one control record. Behind it the
cache holds the upper half of the current address. -/
theorem announce_spec (bufSize : Nat) (writer : Writer) (room : 37 ≤ bufSize)
    (size : writer.str.length = 80) :
    ∃ str linear, announce bufSize writer = .ok (str, writer.addr >>> 16, linear) ∧
      str.length = 80 ∧
      ((linear = [] ∧ writer.ulba = writer.addr >>> 16) ∨
        linear = [.control (spelledLine (linearBytes (writer.addr >>> 16)))]) := by
  by_cases needed : needsLinear writer.addr writer.ulba = true
  · obtain ⟨str, kept, printed⟩ := print_record writer.str 4 0
      [(writer.addr >>> 16 >>> 8).toUInt8, (writer.addr >>> 16).toUInt8]
        (List.replicate (bufSize - 7) 0)
      size (by simp)
    have filled := linear_address_buf bufSize (writer.addr >>> 16) (by omega)
    have seven :
      UInt8.ofNat ([(writer.addr >>> 16 >>> 8).toUInt8, (writer.addr >>> 16).toUInt8].length + 5) =
        7 := rfl
    rw [seven] at printed
    refine ⟨str, _, ?_, kept, Or.inr rfl⟩
    simp only [announce, needed, if_true, filled, ok_bind, linearBytes, printed]
  · have same : writer.ulba = writer.addr >>> 16 := by
      simp only [needsLinear, decide_eq_true_eq, not_or, not_not] at needed
      exact needed.1.symm
    exact ⟨writer.str, [], by rw [announce, if_neg needed, same], size, Or.inl ⟨rfl, same⟩⟩

/-- A pass whose record stays inside the block, the arrays and the count byte prints
that record and goes on behind it. -/
theorem write_step (heap : Heap Block) (bufSize : Nat) (maxLen dataLen : u32) (writer : Writer)
    (pointer : Nat) (node : Node Block) (current : writer.current = some pointer)
    (found : heap.stored pointer = some node) (roomy : 37 ≤ bufSize) (size : writer.str.length = 80)
    (computed : recordLength writer.addr writer.restLen maxLen (writer.addr >>> 16) = dataLen)
    (inside : writer.offset.toNat + dataLen.toNat ≤ node.value.data.length)
    (short : dataLen.toNat ≤ 34) (room : dataLen.toNat + 5 ≤ bufSize) :
    ∃ str linear, str.length = 80 ∧
      ((linear = [] ∧ writer.ulba = writer.addr >>> 16) ∨
        linear = [.control (spelledLine (linearBytes (writer.addr >>> 16)))]) ∧
      writeStep heap bufSize maxLen writer = (do
        let after ← advance heap node writer dataLen (writer.addr >>> 16) str
        .ok (linear ++ [.data writer.addr writer.offset writer.restLen dataLen
          (spelledLine (recordBytes 0 writer.addr.toUInt16
            ((node.value.data.drop writer.offset.toNat).take dataLen.toNat)))], after)) := by
  obtain ⟨first, linear, announced, firstSize, kind⟩ := announce_spec bufSize writer roomy size
  have filled := data_buf bufSize writer.addr node.value.data writer.offset dataLen (by omega) room
    inside
  have taken :
      ((node.value.data.drop writer.offset.toNat).take dataLen.toNat).length = dataLen.toNat := by
    rw [List.length_take, List.length_drop]
    omega
  obtain ⟨str, kept, printed⟩ := print_record first 0 writer.addr.toUInt16
    ((node.value.data.drop writer.offset.toNat).take dataLen.toNat)
    (List.replicate (bufSize - (dataLen.toNat + 5)) 0) firstSize (by omega)
  rw [taken] at printed
  refine ⟨str, linear, kept, kind, ?_⟩
  simp only [writeStep, current, heap.read_stored pointer _ found, ok_bind, announced, computed,
    filled, printed]

/-! ## Behind the loop -/

/-- The lines printed behind the data: the start address unless it is all ones, and the
end of the file. -/
def trailer (ihf : IntelHexFormat) : List Printed :=
  (if ihf.startLinearAddress ≠ 0xFFFFFFFF then
    [.control (spelledLine (recordBytes 5 0 [(ihf.startLinearAddress >>> 24).toUInt8,
      (ihf.startLinearAddress >>> 16).toUInt8, (ihf.startLinearAddress >>> 8).toUInt8,
      ihf.startLinearAddress.toUInt8]))]
  else []) ++ [.control (spelledLine (recordBytes 1 0 []))]

/-- A file that can be written gets what the loop printed, followed by the trailer. The trailer is
the start address, unless it is all ones, and the end of the file. -/
theorem output_trailer (heap : Heap Block) (ihf : IntelHexFormat) (bufSize fuel : Nat)
    (str : TextBuffer) (pointer : Nat) (node : Node Block) (printed : List Printed)
    (final : List u8) (ended : ihf.endOfFile = true) (present : ihf.blockHead = some pointer)
    (found : heap.stored pointer = some node) (roomy : 37 ≤ bufSize)
    (looped : writeLoop heap bufSize (maxLength ihf) fuel ⟨some pointer, node.value.address,
      node.value.length, 0, 0xFFFF, str.bytes⟩ = .ok (printed, final))
    (size : final.length = 80) :
    intelHexFileOutput heap ihf bufSize fuel str true = .ok (true, printed ++ trailer ihf) := by
  have unwritten : ¬ (ihf.endOfFile = false ∨ ihf.blockHead = none) := by simp [ended, present]
  have nine :
    UInt8.ofNat ([(ihf.startLinearAddress >>> 24).toUInt8, (ihf.startLinearAddress >>> 16).toUInt8,
    (ihf.startLinearAddress >>> 8).toUInt8, ihf.startLinearAddress.toUInt8].length + 5) = 9 := rfl
  have five : UInt8.ofNat (([] : List u8).length + 5) = 5 := rfl
  obtain ⟨middle, middleSize, startPrinted⟩ := print_record final 5 0
    [(ihf.startLinearAddress >>> 24).toUInt8, (ihf.startLinearAddress >>> 16).toUInt8,
      (ihf.startLinearAddress >>> 8).toUInt8, ihf.startLinearAddress.toUInt8]
    (List.replicate (bufSize - 9) 0) size (by simp)
  rw [nine] at startPrinted
  rw [intelHexFileOutput, if_neg unwritten, if_neg (by simp), present]
  simp only [heap.read_stored pointer _ found, ok_bind, looped, end_of_file_buf bufSize
    (show 5 ≤ bufSize by omega)]
  by_cases start : ihf.startLinearAddress ≠ 0xFFFFFFFF
  · obtain ⟨last, _, endPrinted⟩ :=
      print_record middle 1 0 [] (List.replicate (bufSize - 5) 0) middleSize
      (by simp)
    rw [five] at endPrinted
    rw [if_pos start, trailer, if_pos start, start_linear_buf bufSize _ (by omega)]
    simp only [ok_bind, startPrinted, endPrinted, List.append_assoc]
  · obtain ⟨last, _, endPrinted⟩ := print_record final 1 0 [] (List.replicate (bufSize - 5) 0) size
      (by simp)
    rw [five] at endPrinted
    rw [if_neg start, trailer, if_neg start]
    simp only [ok_bind, endPrinted, List.append_assoc]

/-- A file that was written got what the loop printed and control records. No data record follows
behind the loop. -/
theorem output_returns (heap : Heap Block) (ihf : IntelHexFormat) (bufSize fuel : Nat)
    (str : TextBuffer) (pointer : Nat) (node : Node Block) (printed : List Printed)
    (present : ihf.blockHead = some pointer) (found : heap.stored pointer = some node)
    (returned : intelHexFileOutput heap ihf bufSize fuel str true = .ok (true, printed)) :
    ∃ records later final, writeLoop heap bufSize (maxLength ihf) fuel
        ⟨some pointer, node.value.address, node.value.length, 0, 0xFFFF, str.bytes⟩ =
          .ok (records, final) ∧
      printed = records ++ later := by
  by_cases unwritten : ihf.endOfFile = false ∨ ihf.blockHead = none
  · simp [intelHexFileOutput, unwritten] at returned
  · rw [intelHexFileOutput, if_neg unwritten, if_neg (by simp), present] at returned
    simp only [heap.read_stored pointer _ found, ok_bind] at returned
    obtain ⟨⟨records, final⟩, looped, returned⟩ := (bind_ok_iff _ _ _).mp returned
    obtain ⟨⟨following, start⟩, _, returned⟩ := (bind_ok_iff _ _ _).mp returned
    obtain ⟨buf, _, returned⟩ := (bind_ok_iff _ _ _).mp returned
    obtain ⟨⟨rest, line⟩, _, returned⟩ := (bind_ok_iff _ _ _).mp returned
    refine ⟨records, start ++ [.control line], final, looped, ?_⟩
    simpa using returned.symm

/-- Whatever a pass returns, it printed a record of the computed length. The announcement in front
of it consists of control records. -/
theorem step_returns (heap : Heap Block) (bufSize : Nat) (maxLen : u32) (writer after : Writer)
    (printed : List Printed) (pointer : Nat) (node : Node Block)
    (current : writer.current = some pointer) (found : heap.stored pointer = some node)
    (returned : writeStep heap bufSize maxLen writer = .ok (printed, after)) :
    let dataLen := recordLength writer.addr writer.restLen maxLen (writer.addr >>> 16)
    ∃ linear line str, (∀ other ∈ linear, ∃ text, other = Printed.control text) ∧
      printed = linear ++ [.data writer.addr writer.offset writer.restLen dataLen line] ∧
      advance heap node writer dataLen (writer.addr >>> 16) str = .ok after := by
  intro dataLen
  simp only [writeStep, current, heap.read_stored pointer _ found, ok_bind] at returned
  obtain ⟨⟨first, ulba, linear⟩, announced, returned⟩ := (bind_ok_iff _ _ _).mp returned
  obtain ⟨⟨buf, bufLen⟩, filled, returned⟩ := (bind_ok_iff _ _ _).mp returned
  obtain ⟨⟨str, line⟩, spelled, returned⟩ := (bind_ok_iff _ _ _).mp returned
  obtain ⟨following, advanced, returned⟩ := (bind_ok_iff _ _ _).mp returned
  obtain ⟨rfl, rfl⟩ : linear ++ [.data writer.addr writer.offset writer.restLen
      (recordLength writer.addr writer.restLen maxLen ulba) line] = printed ∧
        following = after := by
    simpa using returned
  have announcement : ulba = writer.addr >>> 16 ∧
      ∀ other ∈ linear, ∃ text, other = Printed.control text := by
    by_cases needed : needsLinear writer.addr writer.ulba = true
    · simp only [announce, needed, if_true] at announced
      obtain ⟨buf, _, announced⟩ := (bind_ok_iff _ _ _).mp announced
      obtain ⟨⟨text, line⟩, _, announced⟩ := (bind_ok_iff _ _ _).mp announced
      obtain ⟨-, rfl, rfl⟩ :
          text = first ∧ writer.addr >>> 16 = ulba ∧ [Printed.control line] = linear := by
        simpa using announced
      exact ⟨rfl, by simp⟩
    · rw [announce, if_neg needed] at announced
      obtain ⟨-, rfl, rfl⟩ :
          writer.str = first ∧ writer.ulba = ulba ∧ [] = linear := by
        simpa using announced
      simp only [needsLinear, decide_eq_true_eq, not_or, not_not] at needed
      exact ⟨needed.1.symm, by simp⟩
  obtain ⟨rfl, controls⟩ := announcement
  exact ⟨linear, line, str, controls, rfl, advanced⟩

end EffiLib.IntelHex
