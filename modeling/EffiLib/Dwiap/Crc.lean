import EffiLib.Library.Buffers
import EffiLib.Library.ShiftRegister

/-!
# Table-driven checksums

`GetCRC16_IBM`, `GetCRC16_CCITT`, `GetCRC32` and `GetCRC32_IEEE` run over a buffer with
one table lookup for each byte. The buffer is what the source pointer points to; a
length beyond its end faults.
-/

namespace EffiLib.Dwiap

open Buffers ShiftRegister

/-- The source's `u8`. -/
abbrev u8 := UInt8

/-- The source's `u16`. -/
abbrev u16 := UInt16

/-- The source's `u32`. -/
abbrev u32 := UInt32

set_option maxRecDepth 2000 in
/-- The table of `GetCRC16_IBM`. It is given entry by entry, as in the source. -/
def crctableIBMRefl : Vector u16 256 := #v[
  0x0000, 0xC0C1, 0xC181, 0x0140, 0xC301, 0x03C0, 0x0280, 0xC241,
  0xC601, 0x06C0, 0x0780, 0xC741, 0x0500, 0xC5C1, 0xC481, 0x0440,
  0xCC01, 0x0CC0, 0x0D80, 0xCD41, 0x0F00, 0xCFC1, 0xCE81, 0x0E40,
  0x0A00, 0xCAC1, 0xCB81, 0x0B40, 0xC901, 0x09C0, 0x0880, 0xC841,
  0xD801, 0x18C0, 0x1980, 0xD941, 0x1B00, 0xDBC1, 0xDA81, 0x1A40,
  0x1E00, 0xDEC1, 0xDF81, 0x1F40, 0xDD01, 0x1DC0, 0x1C80, 0xDC41,
  0x1400, 0xD4C1, 0xD581, 0x1540, 0xD701, 0x17C0, 0x1680, 0xD641,
  0xD201, 0x12C0, 0x1380, 0xD341, 0x1100, 0xD1C1, 0xD081, 0x1040,
  0xF001, 0x30C0, 0x3180, 0xF141, 0x3300, 0xF3C1, 0xF281, 0x3240,
  0x3600, 0xF6C1, 0xF781, 0x3740, 0xF501, 0x35C0, 0x3480, 0xF441,
  0x3C00, 0xFCC1, 0xFD81, 0x3D40, 0xFF01, 0x3FC0, 0x3E80, 0xFE41,
  0xFA01, 0x3AC0, 0x3B80, 0xFB41, 0x3900, 0xF9C1, 0xF881, 0x3840,
  0x2800, 0xE8C1, 0xE981, 0x2940, 0xEB01, 0x2BC0, 0x2A80, 0xEA41,
  0xEE01, 0x2EC0, 0x2F80, 0xEF41, 0x2D00, 0xEDC1, 0xEC81, 0x2C40,
  0xE401, 0x24C0, 0x2580, 0xE541, 0x2700, 0xE7C1, 0xE681, 0x2640,
  0x2200, 0xE2C1, 0xE381, 0x2340, 0xE101, 0x21C0, 0x2080, 0xE041,
  0xA001, 0x60C0, 0x6180, 0xA141, 0x6300, 0xA3C1, 0xA281, 0x6240,
  0x6600, 0xA6C1, 0xA781, 0x6740, 0xA501, 0x65C0, 0x6480, 0xA441,
  0x6C00, 0xACC1, 0xAD81, 0x6D40, 0xAF01, 0x6FC0, 0x6E80, 0xAE41,
  0xAA01, 0x6AC0, 0x6B80, 0xAB41, 0x6900, 0xA9C1, 0xA881, 0x6840,
  0x7800, 0xB8C1, 0xB981, 0x7940, 0xBB01, 0x7BC0, 0x7A80, 0xBA41,
  0xBE01, 0x7EC0, 0x7F80, 0xBF41, 0x7D00, 0xBDC1, 0xBC81, 0x7C40,
  0xB401, 0x74C0, 0x7580, 0xB541, 0x7700, 0xB7C1, 0xB681, 0x7640,
  0x7200, 0xB2C1, 0xB381, 0x7340, 0xB101, 0x71C0, 0x7080, 0xB041,
  0x5000, 0x90C1, 0x9181, 0x5140, 0x9301, 0x53C0, 0x5280, 0x9241,
  0x9601, 0x56C0, 0x5780, 0x9741, 0x5500, 0x95C1, 0x9481, 0x5440,
  0x9C01, 0x5CC0, 0x5D80, 0x9D41, 0x5F00, 0x9FC1, 0x9E81, 0x5E40,
  0x5A00, 0x9AC1, 0x9B81, 0x5B40, 0x9901, 0x59C0, 0x5880, 0x9841,
  0x8801, 0x48C0, 0x4980, 0x8941, 0x4B00, 0x8BC1, 0x8A81, 0x4A40,
  0x4E00, 0x8EC1, 0x8F81, 0x4F40, 0x8D01, 0x4DC0, 0x4C80, 0x8C41,
  0x4400, 0x84C1, 0x8581, 0x4540, 0x8701, 0x47C0, 0x4680, 0x8641,
  0x8201, 0x42C0, 0x4380, 0x8341, 0x4100, 0x81C1, 0x8081, 0x4040]

set_option maxRecDepth 2000 in
/-- The table of `GetCRC16_CCITT`. It is given entry by entry, as in the source. -/
def crctableCCITTRefl : Vector u16 256 := #v[
  0x0000, 0x1189, 0x2312, 0x329B, 0x4624, 0x57AD, 0x6536, 0x74BF,
  0x8C48, 0x9DC1, 0xAF5A, 0xBED3, 0xCA6C, 0xDBE5, 0xE97E, 0xF8F7,
  0x1081, 0x0108, 0x3393, 0x221A, 0x56A5, 0x472C, 0x75B7, 0x643E,
  0x9CC9, 0x8D40, 0xBFDB, 0xAE52, 0xDAED, 0xCB64, 0xF9FF, 0xE876,
  0x2102, 0x308B, 0x0210, 0x1399, 0x6726, 0x76AF, 0x4434, 0x55BD,
  0xAD4A, 0xBCC3, 0x8E58, 0x9FD1, 0xEB6E, 0xFAE7, 0xC87C, 0xD9F5,
  0x3183, 0x200A, 0x1291, 0x0318, 0x77A7, 0x662E, 0x54B5, 0x453C,
  0xBDCB, 0xAC42, 0x9ED9, 0x8F50, 0xFBEF, 0xEA66, 0xD8FD, 0xC974,
  0x4204, 0x538D, 0x6116, 0x709F, 0x0420, 0x15A9, 0x2732, 0x36BB,
  0xCE4C, 0xDFC5, 0xED5E, 0xFCD7, 0x8868, 0x99E1, 0xAB7A, 0xBAF3,
  0x5285, 0x430C, 0x7197, 0x601E, 0x14A1, 0x0528, 0x37B3, 0x263A,
  0xDECD, 0xCF44, 0xFDDF, 0xEC56, 0x98E9, 0x8960, 0xBBFB, 0xAA72,
  0x6306, 0x728F, 0x4014, 0x519D, 0x2522, 0x34AB, 0x0630, 0x17B9,
  0xEF4E, 0xFEC7, 0xCC5C, 0xDDD5, 0xA96A, 0xB8E3, 0x8A78, 0x9BF1,
  0x7387, 0x620E, 0x5095, 0x411C, 0x35A3, 0x242A, 0x16B1, 0x0738,
  0xFFCF, 0xEE46, 0xDCDD, 0xCD54, 0xB9EB, 0xA862, 0x9AF9, 0x8B70,
  0x8408, 0x9581, 0xA71A, 0xB693, 0xC22C, 0xD3A5, 0xE13E, 0xF0B7,
  0x0840, 0x19C9, 0x2B52, 0x3ADB, 0x4E64, 0x5FED, 0x6D76, 0x7CFF,
  0x9489, 0x8500, 0xB79B, 0xA612, 0xD2AD, 0xC324, 0xF1BF, 0xE036,
  0x18C1, 0x0948, 0x3BD3, 0x2A5A, 0x5EE5, 0x4F6C, 0x7DF7, 0x6C7E,
  0xA50A, 0xB483, 0x8618, 0x9791, 0xE32E, 0xF2A7, 0xC03C, 0xD1B5,
  0x2942, 0x38CB, 0x0A50, 0x1BD9, 0x6F66, 0x7EEF, 0x4C74, 0x5DFD,
  0xB58B, 0xA402, 0x9699, 0x8710, 0xF3AF, 0xE226, 0xD0BD, 0xC134,
  0x39C3, 0x284A, 0x1AD1, 0x0B58, 0x7FE7, 0x6E6E, 0x5CF5, 0x4D7C,
  0xC60C, 0xD785, 0xE51E, 0xF497, 0x8028, 0x91A1, 0xA33A, 0xB2B3,
  0x4A44, 0x5BCD, 0x6956, 0x78DF, 0x0C60, 0x1DE9, 0x2F72, 0x3EFB,
  0xD68D, 0xC704, 0xF59F, 0xE416, 0x90A9, 0x8120, 0xB3BB, 0xA232,
  0x5AC5, 0x4B4C, 0x79D7, 0x685E, 0x1CE1, 0x0D68, 0x3FF3, 0x2E7A,
  0xE70E, 0xF687, 0xC41C, 0xD595, 0xA12A, 0xB0A3, 0x8238, 0x93B1,
  0x6B46, 0x7ACF, 0x4854, 0x59DD, 0x2D62, 0x3CEB, 0x0E70, 0x1FF9,
  0xF78F, 0xE606, 0xD49D, 0xC514, 0xB1AB, 0xA022, 0x92B9, 0x8330,
  0x7BC7, 0x6A4E, 0x58D5, 0x495C, 0x3DE3, 0x2C6A, 0x1EF1, 0x0F78]

set_option maxRecDepth 2000 in
/-- The table of `GetCRC32` and `GetCRC32_IEEE`. It is given entry by entry, as in the source. -/
def crc32ReverseTable : Vector u32 256 := #v[
  0x00000000, 0x77073096, 0xEE0E612C, 0x990951BA, 0x076DC419, 0x706AF48F, 0xE963A535, 0x9E6495A3,
  0x0EDB8832, 0x79DCB8A4, 0xE0D5E91E, 0x97D2D988, 0x09B64C2B, 0x7EB17CBD, 0xE7B82D07, 0x90BF1D91,
  0x1DB71064, 0x6AB020F2, 0xF3B97148, 0x84BE41DE, 0x1ADAD47D, 0x6DDDE4EB, 0xF4D4B551, 0x83D385C7,
  0x136C9856, 0x646BA8C0, 0xFD62F97A, 0x8A65C9EC, 0x14015C4F, 0x63066CD9, 0xFA0F3D63, 0x8D080DF5,
  0x3B6E20C8, 0x4C69105E, 0xD56041E4, 0xA2677172, 0x3C03E4D1, 0x4B04D447, 0xD20D85FD, 0xA50AB56B,
  0x35B5A8FA, 0x42B2986C, 0xDBBBC9D6, 0xACBCF940, 0x32D86CE3, 0x45DF5C75, 0xDCD60DCF, 0xABD13D59,
  0x26D930AC, 0x51DE003A, 0xC8D75180, 0xBFD06116, 0x21B4F4B5, 0x56B3C423, 0xCFBA9599, 0xB8BDA50F,
  0x2802B89E, 0x5F058808, 0xC60CD9B2, 0xB10BE924, 0x2F6F7C87, 0x58684C11, 0xC1611DAB, 0xB6662D3D,
  0x76DC4190, 0x01DB7106, 0x98D220BC, 0xEFD5102A, 0x71B18589, 0x06B6B51F, 0x9FBFE4A5, 0xE8B8D433,
  0x7807C9A2, 0x0F00F934, 0x9609A88E, 0xE10E9818, 0x7F6A0DBB, 0x086D3D2D, 0x91646C97, 0xE6635C01,
  0x6B6B51F4, 0x1C6C6162, 0x856530D8, 0xF262004E, 0x6C0695ED, 0x1B01A57B, 0x8208F4C1, 0xF50FC457,
  0x65B0D9C6, 0x12B7E950, 0x8BBEB8EA, 0xFCB9887C, 0x62DD1DDF, 0x15DA2D49, 0x8CD37CF3, 0xFBD44C65,
  0x4DB26158, 0x3AB551CE, 0xA3BC0074, 0xD4BB30E2, 0x4ADFA541, 0x3DD895D7, 0xA4D1C46D, 0xD3D6F4FB,
  0x4369E96A, 0x346ED9FC, 0xAD678846, 0xDA60B8D0, 0x44042D73, 0x33031DE5, 0xAA0A4C5F, 0xDD0D7CC9,
  0x5005713C, 0x270241AA, 0xBE0B1010, 0xC90C2086, 0x5768B525, 0x206F85B3, 0xB966D409, 0xCE61E49F,
  0x5EDEF90E, 0x29D9C998, 0xB0D09822, 0xC7D7A8B4, 0x59B33D17, 0x2EB40D81, 0xB7BD5C3B, 0xC0BA6CAD,
  0xEDB88320, 0x9ABFB3B6, 0x03B6E20C, 0x74B1D29A, 0xEAD54739, 0x9DD277AF, 0x04DB2615, 0x73DC1683,
  0xE3630B12, 0x94643B84, 0x0D6D6A3E, 0x7A6A5AA8, 0xE40ECF0B, 0x9309FF9D, 0x0A00AE27, 0x7D079EB1,
  0xF00F9344, 0x8708A3D2, 0x1E01F268, 0x6906C2FE, 0xF762575D, 0x806567CB, 0x196C3671, 0x6E6B06E7,
  0xFED41B76, 0x89D32BE0, 0x10DA7A5A, 0x67DD4ACC, 0xF9B9DF6F, 0x8EBEEFF9, 0x17B7BE43, 0x60B08ED5,
  0xD6D6A3E8, 0xA1D1937E, 0x38D8C2C4, 0x4FDFF252, 0xD1BB67F1, 0xA6BC5767, 0x3FB506DD, 0x48B2364B,
  0xD80D2BDA, 0xAF0A1B4C, 0x36034AF6, 0x41047A60, 0xDF60EFC3, 0xA867DF55, 0x316E8EEF, 0x4669BE79,
  0xCB61B38C, 0xBC66831A, 0x256FD2A0, 0x5268E236, 0xCC0C7795, 0xBB0B4703, 0x220216B9, 0x5505262F,
  0xC5BA3BBE, 0xB2BD0B28, 0x2BB45A92, 0x5CB36A04, 0xC2D7FFA7, 0xB5D0CF31, 0x2CD99E8B, 0x5BDEAE1D,
  0x9B64C2B0, 0xEC63F226, 0x756AA39C, 0x026D930A, 0x9C0906A9, 0xEB0E363F, 0x72076785, 0x05005713,
  0x95BF4A82, 0xE2B87A14, 0x7BB12BAE, 0x0CB61B38, 0x92D28E9B, 0xE5D5BE0D, 0x7CDCEFB7, 0x0BDBDF21,
  0x86D3D2D4, 0xF1D4E242, 0x68DDB3F8, 0x1FDA836E, 0x81BE16CD, 0xF6B9265B, 0x6FB077E1, 0x18B74777,
  0x88085AE6, 0xFF0F6A70, 0x66063BCA, 0x11010B5C, 0x8F659EFF, 0xF862AE69, 0x616BFFD3, 0x166CCF45,
  0xA00AE278, 0xD70DD2EE, 0x4E048354, 0x3903B3C2, 0xA7672661, 0xD06016F7, 0x4969474D, 0x3E6E77DB,
  0xAED16A4A, 0xD9D65ADC, 0x40DF0B66, 0x37D83BF0, 0xA9BCAE53, 0xDEBB9EC5, 0x47B2CF7F, 0x30B5FFE9,
  0xBDBDF21C, 0xCABAC28A, 0x53B39330, 0x24B4A3A6, 0xBAD03605, 0xCDD70693, 0x54DE5729, 0x23D967BF,
  0xB3667A2E, 0xC4614AB8, 0x5D681B02, 0x2A6F2B94, 0xB40BBE37, 0xC30C8EA1, 0x5A05DF1B, 0x2D02EF8D]

/-- Masking with `0xFF` leaves the low byte, which indexes the table. An index below 256 is always
inside the table. -/
theorem low_byte_u16 (value : u16) : (value &&& 0xFF).toNat = value.toNat % 256 :=
  Nat.and_two_pow_sub_one_eq_mod value.toNat 8

/-- Masking the wide register of the 32-bit checksums leaves its low byte. An index below 256 is
inside its table as well. -/
theorem low_byte_u32 (value : u32) : (value &&& 0xFF).toNat = value.toNat % 256 :=
  Nat.and_two_pow_sub_one_eq_mod value.toNat 8

/-- The entry of a table for the low byte of a word. The index is below 256 by its mask. -/
def lookup16 (table : Vector u16 256) (value : u16) : u16 :=
  table.get ⟨(value &&& 0xFF).toNat, by rw [low_byte_u16]; exact Nat.mod_lt _ (by decide)⟩

/-- The entry of a table for the low byte of a double word. The index is below 256 by its mask. -/
def lookup32 (table : Vector u32 256) (value : u32) : u32 :=
  table.get ⟨(value &&& 0xFF).toNat, by rw [low_byte_u32]; exact Nat.mod_lt _ (by decide)⟩

/-- A loop that takes `*src++` as often as it is told to. A pass without a byte left reads behind
the buffer. -/
def eachByte {ρ : Type} (body : ρ → u8 → ρ) : List u8 → Nat → ρ → Run ρ
  | _, 0, register => .ok register
  | [], _ + 1, _ => .error .outOfBounds
  | byte :: src, count + 1, register => eachByte body src count (body register byte)

/-- `GetCRC16_IBM`. The seed is the register at the beginning. -/
def getCRC16IBM (seed : u16) (src : List u8) (len : u32) : Run u16 :=
  eachByte (fun r byte => (r >>> 8) ^^^ lookup16 crctableIBMRefl (r ^^^ byte.toUInt16))
    src len.toNat seed

/-- `GetCRC16_CCITT`. It differs from `getCRC16IBM` in its table only. -/
def getCRC16CCITT (seed : u16) (src : List u8) (len : u32) : Run u16 :=
  eachByte (fun r byte => (r >>> 8) ^^^ lookup16 crctableCCITTRefl (r ^^^ byte.toUInt16))
    src len.toNat seed

/-- `GetCRC16`. It is a name for the CCITT checksum. -/
def getCRC16 (seed : u16) (src : List u8) (length : u32) : Run u16 := getCRC16CCITT seed src length

/-- The loop body of `GetCRC32` and `GetCRC32_IEEE`. The mask takes nothing away from the shift of
an unsigned word. -/
def crc32Step (crc : u32) (byte : u8) : u32 :=
  ((crc >>> 8) &&& 0x00FFFFFF) ^^^ lookup32 crc32ReverseTable (crc ^^^ byte.toUInt32)

/-- `GetCRC32`. Its result is not inverted. -/
def getCRC32 (seed : u32) (src : List u8) (len : u32) : Run u32 :=
  eachByte crc32Step src len.toNat seed

/-- `GetCRC32_IEEE`. Seed and inversion are fixed. -/
def getCRC32IEEE (src : List u8) (len : u32) : Run u32 := do
  let crc ← eachByte crc32Step src len.toNat 0xFFFFFFFF
  .ok (~~~crc)

/-- A loop that stays inside the buffer folds its body over the bytes it takes. Proof: by
induction on the number of bytes that are left. -/
theorem each_byte_fold {ρ : Type} (body : ρ → u8 → ρ) (src : List u8) (count : Nat) (register : ρ)
    (enough : count ≤ src.length) :
    eachByte body src count register = .ok ((src.take count).foldl body register) := by
  induction src generalizing count register with
  | nil =>
    obtain rfl : count = 0 := Nat.le_zero.mp enough
    rfl
  | cons byte src inductionHypothesis =>
    cases count with
    | zero => rfl
    | succ count => exact inductionHypothesis count _ (Nat.le_of_succ_le_succ enough)

/-- Each entry is eight steps of the register. So the table is that of the polynomial and of no
other. All 256 entries are computed. -/
theorem table_ibm (index : Fin 256) :
    (crctableIBMRefl.get index).toBitVec = (shift 0xA001#16)^[8] (BitVec.ofNat 16 index) := by
  revert index
  decide +kernel

/-- A row of the CCITT table is its index shifted through eight times, so the table holds what the
bit-at-a-time register computes. -/
theorem table_ccitt (index : Fin 256) :
    (crctableCCITTRefl.get index).toBitVec = (shift 0x8408#16)^[8] (BitVec.ofNat 16 index) := by
  revert index
  decide +kernel

/-- Each entry of the table of the 32-bit checksums is eight steps of its register. All 256
entries are computed. -/
theorem table_reverse (index : Fin 256) :
    (crc32ReverseTable.get index).toBitVec =
      (shift 0xEDB88320#32)^[8] (BitVec.ofNat 32 index) := by
  revert index
  decide +kernel

/-- A step over a table of the register's own eight steps feeds one byte. It is used for both
polynomials of 16 bits. -/
theorem lookup16_feeds (poly : BitVec 16) (table : Vector u16 256)
    (entries : ∀ index : Fin 256,
      (table.get index).toBitVec = (shift poly)^[8] (BitVec.ofNat 16 index))
    (r : u16) (byte : u8) :
    ((r >>> 8) ^^^ lookup16 table (r ^^^ byte.toUInt16)).toBitVec =
      feed poly r.toBitVec byte.toBitVec := by
  rw [feed_lookup poly (by decide), UInt16.toBitVec_xor, lookup16, entries]
  simp only [low_byte_u16]
  rfl

/-- One pass of the 32-bit loop feeds one byte to the register. The table is entered with the low
byte of the exclusive or. -/
theorem crc32_feeds (crc : u32) (byte : u8) :
    (crc32Step crc byte).toBitVec = feed 0xEDB88320#32 crc.toBitVec byte.toBitVec := by
  have masked : ((crc >>> 8) &&& 0x00FFFFFF).toBitVec = crc.toBitVec >>> 8 := by
    apply BitVec.eq_of_toNat_eq
    have moved : (crc >>> 8).toNat = crc.toNat / 2 ^ 8 := by
      rw [UInt32.toNat_shiftRight, Nat.shiftRight_eq_div_pow]
      rfl
    have bound := crc.toNat_lt
    change (crc >>> 8).toNat &&& (2 ^ 24 - 1) = crc.toNat >>> 8
    rw [Nat.and_two_pow_sub_one_eq_mod, moved, Nat.shiftRight_eq_div_pow]
    omega
  rw [feed_lookup _ (by decide), crc32Step, UInt32.toBitVec_xor, lookup32, table_reverse, masked]
  simp only [low_byte_u32]
  rfl

/-- A loop whose body feeds one byte feeds all of them. Proof: by induction on the bytes. -/
theorem fold_feeds {ρ : Type} {width : Nat} (word : ρ → BitVec width) (poly : BitVec width)
    (body : ρ → u8 → ρ)
    (feeds : ∀ register byte, word (body register byte) = feed poly (word register) byte.toBitVec)
    (bytes : List u8) (register : ρ) :
    word (bytes.foldl body register) = feedAll poly (word register) (bytes.map UInt8.toBitVec) := by
  induction bytes generalizing register with
  | nil => rfl
  | cons byte rest inductionHypothesis =>
    rw [List.foldl_cons, inductionHypothesis, feeds, List.map_cons, feed_all_cons]

/-- `GetCRC16_IBM` returns the register of its polynomial after the first `len` bytes, started at
the seed. -/
theorem ibm_register (seed : u16) (src : List u8) (len : u32) (enough : len.toNat ≤ src.length) :
    getCRC16IBM seed src len =
      .ok ⟨feedAll 0xA001#16 seed.toBitVec ((src.take len.toNat).map UInt8.toBitVec)⟩ := by
  rw [getCRC16IBM, each_byte_fold _ _ _ _ enough,
    ← fold_feeds UInt16.toBitVec _ _ (lookup16_feeds _ _ table_ibm)]

/-- `GetCRC16_CCITT` returns the register of its polynomial after the first `len` bytes. The seed
is the first content of the register. -/
theorem ccitt_register (seed : u16) (src : List u8) (len : u32)
    (enough : len.toNat ≤ src.length) :
    getCRC16CCITT seed src len =
      .ok ⟨feedAll 0x8408#16 seed.toBitVec ((src.take len.toNat).map UInt8.toBitVec)⟩ := by
  rw [getCRC16CCITT, each_byte_fold _ _ _ _ enough,
    ← fold_feeds UInt16.toBitVec _ _ (lookup16_feeds _ _ table_ccitt)]

/-- `GetCRC32` returns the register of its polynomial after the first `len` bytes. The seed is the
first content of the register. -/
theorem crc32_register (seed : u32) (src : List u8) (len : u32)
    (enough : len.toNat ≤ src.length) :
    getCRC32 seed src len =
      .ok ⟨feedAll 0xEDB88320#32 seed.toBitVec ((src.take len.toNat).map UInt8.toBitVec)⟩ := by
  rw [getCRC32, each_byte_fold _ _ _ _ enough, ← fold_feeds UInt32.toBitVec _ _ crc32_feeds]

/-- The inverted checksum is the complement of the plain one from the usual seed. The last
exclusive or with all ones is the complement. -/
theorem ieee_complement (src : List u8) (len : u32) (enough : len.toNat ≤ src.length) :
    ∃ crc, getCRC32 0xFFFFFFFF src len = .ok crc ∧ getCRC32IEEE src len = .ok (~~~crc) := by
  refine ⟨_, each_byte_fold _ _ _ _ enough, ?_⟩
  rw [getCRC32IEEE, each_byte_fold _ _ _ _ enough, ok_bind]

/-- Each checksum of a buffer is the shift register of its polynomial fed with the bytes of the
buffer. Proof: a row of a table is its index shifted through eight times, so one pass of a loop
feeds one byte. -/
theorem checksums_reflected (seed16 : u16) (seed32 : u32) (src : List u8) (len : u32)
    (enough : len.toNat ≤ src.length) :
    let bytes := (src.take len.toNat).map UInt8.toBitVec
    getCRC16IBM seed16 src len = .ok ⟨feedAll 0xA001#16 seed16.toBitVec bytes⟩ ∧
    getCRC16CCITT seed16 src len = .ok ⟨feedAll 0x8408#16 seed16.toBitVec bytes⟩ ∧
    getCRC32 seed32 src len = .ok ⟨feedAll 0xEDB88320#32 seed32.toBitVec bytes⟩ ∧
    getCRC32IEEE src len = .ok (~~~⟨feedAll 0xEDB88320#32 0xFFFFFFFF#32 bytes⟩) := by
  intro bytes
  obtain ⟨crc, plain, inverted⟩ := ieee_complement src len enough
  rw [crc32_register _ src len enough] at plain
  obtain rfl := Except.ok.inj plain
  exact ⟨ibm_register seed16 src len enough, ccitt_register seed16 src len enough,
    crc32_register seed32 src len enough, inverted⟩

/-- The digits one to nine. They are the bytes of the text "123456789". -/
def digits : List u8 := [0x31, 0x32, 0x33, 0x34, 0x35, 0x36, 0x37, 0x38, 0x39]

/-- The checksums of the nine digits, the usual check input of such functions. The 16-bit registers
begin with zero and the wide one with all ones. -/
theorem digits_reflected :
    let bytes := (digits.take 9).map UInt8.toBitVec
    getCRC16IBM 0 digits 9 = .ok ⟨feedAll 0xA001#16 0 bytes⟩ ∧
    getCRC16CCITT 0 digits 9 = .ok ⟨feedAll 0x8408#16 0 bytes⟩ ∧
    getCRC32 0xFFFFFFFF digits 9 = .ok ⟨feedAll 0xEDB88320#32 0xFFFFFFFF#32 bytes⟩ ∧
    getCRC32IEEE digits 9 = .ok (~~~⟨feedAll 0xEDB88320#32 0xFFFFFFFF#32 bytes⟩) :=
  checksums_reflected 0 0xFFFFFFFF digits 9 (by decide)

example : getCRC32IEEE digits 9 = .ok 0xCBF43926 := by decide +kernel

/-- A checksum that is the register of its polynomial gives different values for buffers
that differ within a window as wide as the register. -/
theorem register_tells_bursts {ρ : Type} {width : Nat} (ofBits : BitVec width → ρ)
    (word : Function.Injective ofBits) (poly : BitVec width)
    (top : poly.getLsbD (width - 1) = true) (window : Nat) (room : 8 * window ≤ width)
    (register : BitVec width) (checksum : List u8 → u32 → Run ρ) (len : u32)
    (fed : ∀ src, len.toNat ≤ src.length → checksum src len =
      .ok (ofBits (feedAll poly register ((src.take len.toNat).map UInt8.toBitVec))))
    (left right : List u8) (whole : left.length = len.toNat)
    (differ : DifferWithin window left right) :
    ∃ first second, checksum left len = .ok first ∧ checksum right len = .ok second ∧
      first ≠ second := by
  have lengths := differ.1
  refine ⟨_, _, fed left (Nat.le_of_eq whole.symm), fed right (by omega), fun same => ?_⟩
  rw [List.take_of_length_le (Nat.le_of_eq whole), List.take_of_length_le (by omega)] at same
  exact burst_detected poly top window room register _ _
    (differ.map UInt8.toBitVec fun _ _ => UInt8.toBitVec_inj.mp) (word same)

/-- Two buffers that differ within as many bytes as the register holds have different checksums,
whatever the seed. Proof: feeding a byte is injective in the register, and feeding a window is
injective in its bytes. -/
theorem checksums_tell_bursts (seed16 : u16) (seed32 : u32) (left right : List u8) (len : u32)
    (whole : left.length = len.toNat) :
    (DifferWithin 4 left right → ∃ first second, getCRC32 seed32 left len = .ok first ∧
      getCRC32 seed32 right len = .ok second ∧ first ≠ second) ∧
    (DifferWithin 2 left right →
      (∃ first second, getCRC16IBM seed16 left len = .ok first ∧
        getCRC16IBM seed16 right len = .ok second ∧ first ≠ second) ∧
      ∃ first second, getCRC16CCITT seed16 left len = .ok first ∧
        getCRC16CCITT seed16 right len = .ok second ∧ first ≠ second) := by
  have word16 : Function.Injective UInt16.ofBitVec := fun _ _ => UInt16.ofBitVec.inj
  have word32 : Function.Injective UInt32.ofBitVec := fun _ _ => UInt32.ofBitVec.inj
  refine ⟨fun differ => ?_, fun differ => ⟨?_, ?_⟩⟩
  · exact register_tells_bursts _ word32 0xEDB88320#32 (by decide) 4 (by decide) _ _ len
      (fun src enough => crc32_register seed32 src len enough) left right whole differ
  · exact register_tells_bursts _ word16 0xA001#16 (by decide) 2 (by decide) _ _ len
      (fun src enough => ibm_register seed16 src len enough) left right whole differ
  · exact register_tells_bursts _ word16 0x8408#16 (by decide) 2 (by decide) _ _ len
      (fun src enough => ccitt_register seed16 src len enough) left right whole differ

/-- The digits with the second one changed. None of the three checksums stays. -/
theorem changed_digit_seen :
    let changed := digits.set 1 0x42
    (∃ first second, getCRC32 0 digits 9 = .ok first ∧ getCRC32 0 changed 9 = .ok second ∧
      first ≠ second) ∧
    (∃ first second, getCRC16IBM 0 digits 9 = .ok first ∧ getCRC16IBM 0 changed 9 = .ok second ∧
      first ≠ second) ∧
    ∃ first second, getCRC16CCITT 0 digits 9 = .ok first ∧
      getCRC16CCITT 0 changed 9 = .ok second ∧ first ≠ second := by
  intro changed
  have differ (window : Nat) (wide : 1 ≤ window) : DifferWithin window digits changed := by
    refine ⟨rfl, by decide, 1, fun position away => ?_⟩
    rw [List.getElem?_set_ne (by omega)]
  have told := checksums_tell_bursts 0 0 digits changed 9 rfl
  exact ⟨told.1 (differ 4 (by decide)), told.2 (differ 2 (by decide))⟩

end EffiLib.Dwiap
