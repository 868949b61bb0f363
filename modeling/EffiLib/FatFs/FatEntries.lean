import EffiLib.FatFs.Window
import EffiLib.Library.LittleEndian

/-!
# Entries of the FAT

An entry of the FAT names the next cluster. The entries of a FAT12 volume take one and a
half bytes, so that one may lie across two sectors; those of FAT16 and FAT32 take two and
four. Through the window an entry that was put is read again, and no other changes.
-/

namespace EffiLib.FatFs

open Sectors BlockCache LittleEndian

/-- `LD_WORD`. The low byte comes first. -/
def ldWord (win : List u8) (offset : Nat) : Nat :=
  (byteAt win (offset + 1)).toNat <<< 8 ||| (byteAt win offset).toNat

/-- `LD_DWORD`. The low byte comes first. -/
def ldDword (win : List u8) (offset : Nat) : Nat :=
  (byteAt win (offset + 3)).toNat <<< 24 ||| (byteAt win (offset + 2)).toNat <<< 16 |||
    (byteAt win (offset + 1)).toNat <<< 8 ||| (byteAt win offset).toNat

/-- `ST_WORD`. Higher bytes of the value are dropped. -/
def stWord (win : List u8) (offset val : Nat) : List u8 :=
  (win.set offset (UInt8.ofNat val)).set (offset + 1) (UInt8.ofNat ((val % 2 ^ 16) >>> 8))

/-- `ST_DWORD`. Higher bytes of the value are dropped. -/
def stDword (win : List u8) (offset val : Nat) : List u8 :=
  (((win.set offset (UInt8.ofNat val)).set (offset + 1) (UInt8.ofNat ((val % 2 ^ 16) >>> 8))).set
    (offset + 2) (UInt8.ofNat ((val % 2 ^ 32) >>> 16))).set
    (offset + 3) (UInt8.ofNat ((val % 2 ^ 32) >>> 24))

/-- `get_fat`. The answer is a cluster status, or 1 for a bad cluster number, or the greatest
word for a disk error. -/
def getFat (volume : Volume) (clst : Nat) : Nat × Volume :=
  if clst < 2 ∨ clst ≥ volume.fs.nFatent then (1, volume)
  else
    match volume.fs.fsType with
    | .fat12 =>
      let bc := dwordSum clst (clst / 2)
      match moveWindow volume (dwordSum volume.fs.fatbase (bc / sectorSize)) with
      | (.ok, first) =>
        let wc := (byteAt first.fs.win (bc % sectorSize)).toNat
        let bc := bc + 1
        match moveWindow first (dwordSum first.fs.fatbase (bc / sectorSize)) with
        | (.ok, second) =>
          let wc := wc ||| (byteAt second.fs.win (bc % sectorSize)).toNat <<< 8
          (if clst % 2 = 1 then wc >>> 4 else wc &&& 0xFFF, second)
        | (_, failed) => (0xFFFFFFFF, failed)
      | (_, failed) => (0xFFFFFFFF, failed)
    | .fat16 =>
      match moveWindow volume (dwordSum volume.fs.fatbase (clst / (sectorSize / 2))) with
      | (.ok, moved) => (ldWord moved.fs.win (clst * 2 % sectorSize), moved)
      | (_, failed) => (0xFFFFFFFF, failed)
    | .fat32 =>
      match moveWindow volume (dwordSum volume.fs.fatbase (clst / (sectorSize / 4))) with
      | (.ok, moved) => (ldDword moved.fs.win (clst * 4 % sectorSize) &&& 0x0FFFFFFF, moved)
      | (_, failed) => (0xFFFFFFFF, failed)
    | .unmounted => (0xFFFFFFFF, volume)

/-- The window with other contents, and dirty. It reaches the disk when the window is moved. -/
def Volume.putWin (volume : Volume) (win : List u8) : Volume :=
  { volume with fs := { volume.fs with win, wflag := true } }

/-- The window marked dirty, also where moving it has failed. `put_fat` marks it in every case. -/
def Volume.marked (volume : Volume) : Volume :=
  { volume with fs := { volume.fs with wflag := true } }

/-- `put_fat`. The two marks in front of cluster 2 cannot be put. -/
def putFat (volume : Volume) (clst val : Nat) : FResult × Volume :=
  if clst < 2 ∨ clst ≥ volume.fs.nFatent then (.intErr, volume)
  else
    match volume.fs.fsType with
    | .fat12 =>
      let bc := dwordSum clst (clst / 2)
      match moveWindow volume (dwordSum volume.fs.fatbase (bc / sectorSize)) with
      | (.ok, moved) =>
        let old := byteAt moved.fs.win (bc % sectorSize)
        let first := moved.putWin (moved.fs.win.set (bc % sectorSize)
          (if clst % 2 = 1 then (old &&& (0x0F : u8)) ||| (UInt8.ofNat val <<< (4 : u8))
          else UInt8.ofNat val))
        let bc := bc + 1
        match moveWindow first (dwordSum first.fs.fatbase (bc / sectorSize)) with
        | (.ok, moved) =>
          let old := byteAt moved.fs.win (bc % sectorSize)
          (.ok, moved.putWin (moved.fs.win.set (bc % sectorSize)
            (if clst % 2 = 1 then UInt8.ofNat (val >>> 4)
            else (old &&& (0xF0 : u8)) ||| (UInt8.ofNat (val >>> 8) &&& (0x0F : u8)))))
        | (res, failed) => (res, failed.marked)
      | (res, failed) => (res, failed.marked)
    | .fat16 =>
      match moveWindow volume (dwordSum volume.fs.fatbase (clst / (sectorSize / 2))) with
      | (.ok, moved) => (.ok, moved.putWin (stWord moved.fs.win (clst * 2 % sectorSize) val))
      | (res, failed) => (res, failed.marked)
    | .fat32 =>
      match moveWindow volume (dwordSum volume.fs.fatbase (clst / (sectorSize / 4))) with
      | (.ok, moved) =>
        let kept := ldDword moved.fs.win (clst * 4 % sectorSize) &&& 0xF0000000
        (.ok, moved.putWin (stDword moved.fs.win (clst * 4 % sectorSize) (val ||| kept)))
      | (res, failed) => (res, failed.marked)
    | .unmounted => (.intErr, volume.marked)

/-! ## The table on the volume -/

/-- One more than the greatest value of an entry. Four bits of an entry of FAT32 are reserved. -/
def entryRange : FsType → Nat
  | .fat12 => 2 ^ 12
  | .fat16 => 2 ^ 16
  | .fat32 => 2 ^ 28
  | .unmounted => 1

/-- The bytes that the entries take, as `chk_mounted` counts them. An odd number of entries of
FAT12 ends in the middle of a byte. -/
def requiredSize (fsType : FsType) (nFatent : Nat) : Nat :=
  match fsType with
  | .fat12 => nFatent * 3 / 2 + nFatent % 2
  | .fat16 => nFatent * 2
  | .fat32 => nFatent * 4
  | .unmounted => 0

/-- A sector of the first FAT as it is seen through the window. It may not have reached the disk
yet. -/
def Volume.fatSector (volume : Volume) (number : Nat) : List u8 :=
  volume.cache.view (volume.fs.fatbase + number)

/-- A byte of the first FAT as it is seen through the window. Its offset counts from the start of
the FAT. -/
def Volume.fatByte (volume : Volume) (offset : Nat) : Nat :=
  (byteAt (volume.fatSector (offset / sectorSize)) (offset % sectorSize)).toNat

/-- The entry of a cluster: what it is linked to. It is the entry as a number, without a look at
the window. -/
def Volume.link (volume : Volume) (clst : Nat) : Nat :=
  match volume.fs.fsType with
  | .fat12 =>
    let bc := clst + clst / 2
    if clst % 2 = 1 then volume.fatByte bc / 16 + 16 * volume.fatByte (bc + 1)
    else volume.fatByte bc + 256 * (volume.fatByte (bc + 1) % 16)
  | .fat16 => loadWord 2 (clst * 2 % sectorSize) (volume.fatSector (clst / 256))
  | .fat32 => loadWord 4 (clst * 4 % sectorSize) (volume.fatSector (clst / 128)) % 2 ^ 28
  | .unmounted => 0

/-- The volume is sound and mounted and has a cluster, its FAT has room for every entry, and no
cluster number is an end mark. -/
structure Mounted (volume : Volume) : Prop where
  sound : Sound volume
  known : volume.fs.fsType ≠ .unmounted
  present : 2 < volume.fs.nFatent
  roomy : requiredSize volume.fs.fsType volume.fs.nFatent ≤ sectorSize * volume.fs.fsize
  limited : volume.fs.nFatent < entryRange volume.fs.fsType

/-- The entries that may be read and put. The entries in front of them are marks. -/
def InRange (fs : FATFS) (clst : Nat) : Prop := 2 ≤ clst ∧ clst < fs.nFatent

/-- A sector that belongs to no FAT. The copies of the FAT are not outside. -/
def OutsideFat (fs : FATFS) (number : Nat) : Prop :=
  number < fs.fatbase ∨ fs.fatbase + fs.nFats * fs.fsize ≤ number

/-- A sound volume on which everything is seen as before. The window may be elsewhere. -/
structure SeenSame (volume after : Volume) : Prop where
  sound : Sound after
  system : SameSystem volume.fs after.fs
  seen : ∀ number, Primary (copies volume.fs) number →
    after.cache.view number = volume.cache.view number

/-- The window has not come to a sector outside the FATs. So a sector put on the disk directly is
not hidden by it. -/
def Apart (volume after : Volume) : Prop :=
  ∀ number, OutsideFat volume.fs number → volume.fs.winsect ≠ number → after.fs.winsect ≠ number

/-- A mounted volume with the given links, on which all else is as before. This is what a step on
the FAT leaves. -/
structure Relinked (volume : Volume) (links : Nat → Nat) (after : Volume) : Prop where
  mounted : Mounted after
  system : SameSystem volume.fs after.fs
  apart : Apart volume after
  linked : ∀ clst < volume.fs.nFatent, after.link clst = links clst
  others : ∀ number, OutsideFat volume.fs number →
    after.cache.view number = volume.cache.view number

/-! ## Sectors of the FAT -/

/-- The sectors of the first FAT are no copies. They are where the window reads and writes. -/
theorem fat_primary (fs : FATFS) (number : Nat) (inside : number < fs.fsize) :
    Primary (copies fs) (fs.fatbase + number) :=
  primary_outside fs _ (Or.inl (by omega))

/-- Sectors outside the FATs are no copies either. They have none of their own. -/
theorem outside_primary (fs : FATFS) (number : Nat)
    (outside : OutsideFat fs number) : Primary (copies fs) number :=
  primary_outside fs _ (outside.imp_left (fun before => by omega))

/-- Moving the window to a sector of the disk changes nothing that is seen. A sector that is no copy
is what the window holds then. -/
theorem move_window_shows (volume : Volume) (sound : Sound volume) (number : Nat)
    (named : 0 < number) (inside : number < sectorCount) :
    ∃ after, moveWindow volume number = (.ok, after) ∧ SeenSame volume after ∧
      after.fs.winsect = number ∧
      (Primary (copies volume.fs) number → after.fs.win = volume.cache.view number) ∧
      after.cache = volume.cache.fetch (copies volume.fs) number := by
  obtain ⟨after, moved, system, shown, soundAfter, fetched⟩ :=
    move_window_fetches volume sound number named inside
  refine ⟨after, moved, ⟨soundAfter, system, fun other primary => ?_⟩, shown, fun primary => ?_,
    fetched⟩
  · rw [fetched]
    exact fetch_view _ _ sound.coherent _ other primary
  · have window := fetch_window _ _ sound.coherent _ primary
    rw [← fetched] at window
    exact window

/-- Moving the window to a sector of the FAT shows it. The sum of base and number does not
wrap. -/
theorem move_window_fat (volume : Volume) (sound : Sound volume) (number : Nat)
    (inside : number < volume.fs.fsize) :
    ∃ after, moveWindow volume (dwordSum volume.fs.fatbase number) = (.ok, after) ∧
      SeenSame volume after ∧ after.fs.winsect = volume.fs.fatbase + number ∧
      after.fs.win = volume.fatSector number := by
  obtain ⟨_, room⟩ := placed_sums volume.fs sound.placed
  have sectors : sectorCount = 10240 := rfl
  have reserved := sound.placed.reserved
  have primary := fat_primary volume.fs number inside
  obtain ⟨after, moved, same, shown, window, _⟩ := move_window_shows volume sound
    (volume.fs.fatbase + number) (by omega) (by omega)
  refine ⟨after, ?_, same, shown, window primary⟩
  rw [dword_sum_small _ _ (by omega)]
  exact moved

/-- The sector in the window is seen in it. So an entry of it is read out of the window. -/
theorem fat_sector_window (volume : Volume) (number : Nat) (reserved : 0 < volume.fs.fatbase)
    (shown : volume.fs.winsect = volume.fs.fatbase + number) :
    volume.fatSector number = volume.fs.win := by
  rw [Volume.fatSector, ← shown, Cache.view, if_pos]
  · rfl
  · exact if_neg (by omega)

/-- A changed window over a sector of the FAT. The window is dirty then, and every other sector is
seen as before. -/
theorem put_win_sound (volume : Volume) (sound : Sound volume) (number : Nat)
    (inside : number < volume.fs.fsize)
    (shown : volume.fs.winsect = volume.fs.fatbase + number) (win : List u8)
    (filled : win.length = sectorSize) :
    Sound (volume.putWin win) ∧ ∀ other, (volume.putWin win).cache.view other =
      if other = volume.fs.fatbase + number then win else volume.cache.view other := by
  have reserved := sound.placed.reserved
  have held : volume.cache.held = some (volume.fs.fatbase + number) := by
    rw [← shown]
    exact if_neg (by omega)
  have primary := fat_primary volume.fs number inside
  have modified := modify_coherent _ _ sound.coherent _ win held primary
  exact ⟨⟨⟨reserved, sound.placed.present, sound.placed.inside⟩, sound.complete, filled,
    sound.within, fun _ => shown ▸ Nat.le_add_right _ _, modified⟩,
    fun other => modify_view volume.cache _ other win held⟩

/-- What is seen as before is so in the FAT. The FAT is read by the sectors that are seen. -/
theorem seen_fat_sector (volume after : Volume) (same : SeenSame volume after) (number : Nat)
    (inside : number < volume.fs.fsize) : after.fatSector number = volume.fatSector number := by
  have place : after.fs.fatbase = volume.fs.fatbase := by rw [same.system]
  rw [Volume.fatSector, place]
  exact same.seen _ (fat_primary volume.fs number inside)

/-- Changes of the window add up to one. The window is the only part that differs. -/
theorem same_system_trans (fs middle after : FATFS) (first : SameSystem fs middle)
    (second : SameSystem middle after) : SameSystem fs after := by
  rw [SameSystem, second, first]

/-- Two steps that change nothing. Behind both everything is seen as before. -/
theorem seen_same_trans (volume middle after : Volume) (first : SeenSame volume middle)
    (second : SeenSame middle after) : SeenSame volume after := by
  have system := same_system_trans _ _ _ first.system second.system
  have same := same_system_copies _ _ first.system
  exact ⟨second.sound, system, fun number primary =>
    (second.seen number (same ▸ primary)).trans (first.seen number primary)⟩

/-- The window over a sector of the FAT. Such a window holds no sector outside the FATs. -/
theorem apart_shown (volume after : Volume) (placed : Placed volume.fs) (number : Nat)
    (inside : number < volume.fs.fsize) (shown : after.fs.winsect = volume.fs.fatbase + number) :
    Apart volume after := by
  intro other outside _ same
  have one : volume.fs.fsize ≤ volume.fs.nFats * volume.fs.fsize :=
    Nat.le_mul_of_pos_left _ placed.present
  rw [OutsideFat] at outside
  omega

/-! ## Room for the entries -/

section Room

variable (volume : Volume) (mounted : Mounted volume) (clst : Nat)
  (below : clst < volume.fs.nFatent)

include mounted below

/-- The two bytes of an entry of a FAT12 volume are in the FAT. The two may be in different
sectors. -/
theorem room_fat12 (fat12 : volume.fs.fsType = .fat12) :
    (clst + clst / 2) / sectorSize < volume.fs.fsize ∧
      (clst + clst / 2 + 1) / sectorSize < volume.fs.fsize ∧ clst < 2 ^ 12 := by
  have roomy := mounted.roomy
  have limited := mounted.limited
  rw [fat12] at roomy limited
  simp only [requiredSize, entryRange, sectorSize] at roomy limited ⊢
  omega

/-- The two bytes of an entry of a FAT16 volume are in the FAT. There are 256 entries in a
sector. -/
theorem room_fat16 (fat16 : volume.fs.fsType = .fat16) : clst / 256 < volume.fs.fsize := by
  have roomy := mounted.roomy
  rw [fat16] at roomy
  simp only [requiredSize, sectorSize] at roomy
  omega

/-- The four bytes of an entry of a FAT32 volume are in the FAT. There are 128 entries in a
sector. -/
theorem room_fat32 (fat32 : volume.fs.fsType = .fat32) : clst / 128 < volume.fs.fsize := by
  have roomy := mounted.roomy
  rw [fat32] at roomy
  simp only [requiredSize, sectorSize] at roomy
  omega

end Room

/-! ## Words and bytes of the window -/

/-- A high part next to a low one. Their bits do not meet, so the or is a sum. -/
theorem shifted_or (low high width : Nat) (small : low < 2 ^ width) :
    high <<< width ||| low = low + 2 ^ width * high := by
  rw [← Nat.shiftLeft_add_eq_or_of_lt small, Nat.shiftLeft_eq, Nat.mul_comm, Nat.add_comm]

/-- `LD_WORD` loads two bytes. The low byte comes first. -/
theorem ld_word_loads (win : List u8) (offset : Nat) : ldWord win offset =
    loadWord 2 offset win := by
  have low := (byteAt win offset).toNat_lt
  rw [ldWord, shifted_or _ _ 8 low]
  simp only [loadWord]
  omega

/-- `LD_DWORD` loads four bytes. The low byte comes first. -/
theorem ld_dword_loads (win : List u8) (offset : Nat) :
    ldDword win offset = loadWord 4 offset win := by
  have first := (byteAt win offset).toNat_lt
  have second := (byteAt win (offset + 1)).toNat_lt
  have third := (byteAt win (offset + 2)).toNat_lt
  have inner := shifted_or (byteAt win offset).toNat (byteAt win (offset + 1)).toNat 8 first
  have middle := shifted_or ((byteAt win offset).toNat + 2 ^ 8 * (byteAt win (offset + 1)).toNat)
    (byteAt win (offset + 2)).toNat 16 (by omega)
  have outer := shifted_or ((byteAt win offset).toNat + 2 ^ 8 * (byteAt win (offset + 1)).toNat +
    2 ^ 16 * (byteAt win (offset + 2)).toNat) (byteAt win (offset + 3)).toNat 24 (by omega)
  rw [ldDword, Nat.or_assoc, Nat.or_assoc, inner, middle, outer]
  simp only [loadWord, Nat.add_assoc, Nat.reduceAdd]
  omega

/-- `ST_WORD` stores two bytes. What does not fit into them is dropped. -/
theorem st_word_stores (win : List u8) (offset val : Nat) :
    stWord win offset val = storeWord 2 offset val win := by
  have high : UInt8.ofNat ((val % 2 ^ 16) >>> 8) = UInt8.ofNat (val / 256) := by
    apply UInt8.toNat_inj.mp
    rw [UInt8.toNat_ofNat', UInt8.toNat_ofNat', Nat.shiftRight_eq_div_pow]
    omega
  rw [stWord, high]
  rfl

/-- `ST_DWORD` stores four. The masks and shifts drop what does not fit. -/
theorem st_dword_stores (win : List u8) (offset val : Nat) :
    stDword win offset val = storeWord 4 offset val win := by
  have second : UInt8.ofNat ((val % 2 ^ 16) >>> 8) = UInt8.ofNat (val / 256) := by
    apply UInt8.toNat_inj.mp
    rw [UInt8.toNat_ofNat', UInt8.toNat_ofNat', Nat.shiftRight_eq_div_pow]
    omega
  have third : UInt8.ofNat ((val % 2 ^ 32) >>> 16) = UInt8.ofNat (val / 256 / 256) := by
    apply UInt8.toNat_inj.mp
    rw [UInt8.toNat_ofNat', UInt8.toNat_ofNat', Nat.shiftRight_eq_div_pow]
    omega
  have fourth : UInt8.ofNat ((val % 2 ^ 32) >>> 24) = UInt8.ofNat (val / 256 / 256 / 256) := by
    apply UInt8.toNat_inj.mp
    rw [UInt8.toNat_ofNat', UInt8.toNat_ofNat', Nat.shiftRight_eq_div_pow]
    omega
  rw [stDword, second, third, fourth]
  rfl

/-- The high nibble of a byte. All 256 bytes are tried. -/
theorem high_nibble (number : Nat) (small : number < 256) :
    number &&& 0xF0 = (number / 16) <<< 4 := by
  have all : ∀ other < 256, other &&& 0xF0 = (other / 16) <<< 4 := by decide +kernel
  exact all number small

/-- What FAT12 puts into a byte whose low nibble belongs to another entry. The low nibble stays,
and the high one is the lowest of the value. -/
theorem put_high (byte : u8) (val : Nat) :
    ((byte &&& (0x0F : u8)) ||| (UInt8.ofNat val <<< (4 : u8))).toNat =
      byte.toNat % 16 + 16 * (val % 16) := by
  have low : byte.toNat &&& (0x0F : u8).toNat = byte.toNat % 2 ^ 4 :=
    Nat.and_two_pow_sub_one_eq_mod _ 4
  have high : (UInt8.ofNat val <<< (4 : u8)).toNat = (val % 16) <<< 4 := by
    have places : (4 : u8).toNat % 8 = 4 := rfl
    rw [UInt8.toNat_shiftLeft, UInt8.toNat_ofNat', places, Nat.shiftLeft_eq, Nat.shiftLeft_eq]
    omega
  rw [UInt8.toNat_or, UInt8.toNat_and, low, high, Nat.or_comm,
    shifted_or _ _ 4 (Nat.mod_lt _ (by decide))]
  rfl

/-- What FAT12 puts into a byte whose high nibble belongs to another entry. The high nibble stays,
and the low one is the highest of the twelve bits. -/
theorem put_low (byte : u8) (val : Nat) :
    ((byte &&& (0xF0 : u8)) ||| (UInt8.ofNat (val >>> 8) &&& (0x0F : u8))).toNat =
      16 * (byte.toNat / 16) + val / 256 % 16 := by
  have high : byte.toNat &&& (0xF0 : u8).toNat = (byte.toNat / 16) <<< 4 :=
    high_nibble _ byte.toNat_lt
  have low : (UInt8.ofNat (val >>> 8)).toNat &&& (0x0F : u8).toNat = val / 256 % 16 := by
    have masked : (UInt8.ofNat (val >>> 8)).toNat &&& (0x0F : u8).toNat =
        (UInt8.ofNat (val >>> 8)).toNat % 2 ^ 4 := Nat.and_two_pow_sub_one_eq_mod _ 4
    rw [masked, UInt8.toNat_ofNat', Nat.shiftRight_eq_div_pow]
    omega
  have small : val / 256 % 16 < 2 ^ 4 := Nat.mod_lt _ (by decide)
  rw [UInt8.toNat_or, UInt8.toNat_and, UInt8.toNat_and, high, low, shifted_or _ _ 4 small,
    Nat.add_comm]
  rfl

/-- What FAT12 reads out of the two bytes of an entry. An odd cluster has the upper twelve of the
sixteen bits, and an even one the lower. -/
theorem entry_fat12 (low high clst : Nat) (small : low < 256) :
    (if clst % 2 = 1 then (low ||| high <<< 8) >>> 4 else (low ||| high <<< 8) &&& 0xFFF) =
      if clst % 2 = 1 then low / 16 + 16 * high else low + 256 * (high % 16) := by
  have mask : (low + 2 ^ 8 * high) &&& 0xFFF = (low + 2 ^ 8 * high) % 2 ^ 12 :=
    Nat.and_two_pow_sub_one_eq_mod _ 12
  rw [Nat.or_comm, shifted_or _ _ 8 small, mask, Nat.shiftRight_eq_div_pow]
  split <;> omega

/-- The upper bits that FAT32 keeps do not show in the entry. An entry of FAT32 has 28 bits. -/
theorem reserved_bits (val old : Nat) :
    (val ||| old &&& 0xF0000000) % 2 ^ 28 = val % 2 ^ 28 := by
  have apart : (0xF0000000 : Nat) &&& (2 ^ 28 - 1) = 0 := by decide
  rw [← Nat.and_two_pow_sub_one_eq_mod, ← Nat.and_two_pow_sub_one_eq_mod,
    Nat.and_or_distrib_right, Nat.and_assoc, apart, Nat.and_zero, Nat.or_zero]

/-! ## Reading and putting entries -/

/-- A volume that is seen as before is mounted as before. Only its window may be another. -/
theorem seen_mounted (volume after : Volume) (mounted : Mounted volume)
    (same : SeenSame volume after) : Mounted after := by
  have fields := same.system
  refine ⟨same.sound, ?_, ?_, ?_, ?_⟩ <;> rw [fields]
  · exact mounted.known
  · exact mounted.present
  · exact mounted.roomy
  · exact mounted.limited

/-- A volume that is seen as before has the same links. Its entries are read from the same
sectors. -/
theorem seen_link (volume after : Volume) (mounted : Mounted volume)
    (same : SeenSame volume after) (clst : Nat) (below : clst < volume.fs.nFatent) :
    after.link clst = volume.link clst := by
  have kind : after.fs.fsType = volume.fs.fsType := by rw [same.system]
  rw [Volume.link, Volume.link, kind]
  split
  · rename_i fat12
    obtain ⟨first, second, _⟩ := room_fat12 volume mounted clst below fat12
    simp only [Volume.fatByte, seen_fat_sector volume after same _ first,
      seen_fat_sector volume after same _ second]
  · rename_i fat16
    rw [seen_fat_sector volume after same _ (room_fat16 volume mounted clst below fat16)]
  · rename_i fat32
    rw [seen_fat_sector volume after same _ (room_fat32 volume mounted clst below fat32)]
  · rfl

/-- A step that changes nothing that is seen is one that leaves the links. It is used for
reading. -/
theorem seen_links (volume after : Volume) (mounted : Mounted volume)
    (same : SeenSame volume after) (apart : Apart volume after) :
    Relinked volume volume.link after :=
  ⟨seen_mounted volume after mounted same, same.system, apart,
    fun clst below => seen_link volume after mounted same clst below,
    fun number outside => same.seen number (outside_primary volume.fs number outside)⟩

/-- A cluster number that passes the check of the source. The test of the source is the
negation. -/
theorem in_range (volume : Volume) (clst : Nat) (inRange : InRange volume.fs clst) :
    ¬ (clst < 2 ∨ clst ≥ volume.fs.nFatent) := by
  rw [InRange] at inRange
  omega

/-- `get_fat` answers the link of a cluster and changes none. The window is where the entry was
found. -/
theorem get_fat_reads (volume : Volume) (mounted : Mounted volume) (clst : Nat)
    (inRange : InRange volume.fs clst) :
    ∃ after, getFat volume clst = (volume.link clst, after) ∧
      Relinked volume volume.link after := by
  have sound := mounted.sound
  have within := in_range volume clst inRange
  cases kind : volume.fs.fsType with
  | unmounted => exact absurd kind mounted.known
  | fat12 =>
    obtain ⟨firstRoom, secondRoom, small⟩ := room_fat12 volume mounted clst inRange.2 kind
    have sum : dwordSum clst (clst / 2) = clst + clst / 2 := dword_sum_small _ _ (by omega)
    obtain ⟨first, firstMove, firstSame, _, firstWin⟩ :=
      move_window_fat volume sound _ firstRoom
    have size : first.fs.fsize = volume.fs.fsize := by rw [firstSame.system]
    have base : first.fs.fatbase = volume.fs.fatbase := by rw [firstSame.system]
    obtain ⟨second, secondMove, secondSame, shown, secondWin⟩ :=
      move_window_fat first firstSame.sound _ (size ▸ secondRoom)
    refine ⟨second, ?_, seen_links volume second mounted
      (seen_same_trans _ _ _ firstSame secondSame)
      (apart_shown _ _ sound.placed _ secondRoom (base ▸ shown))⟩
    rw [seen_fat_sector volume first firstSame _ secondRoom] at secondWin
    rw [getFat, if_neg within, Volume.link]
    simp only [kind, sum, firstMove, secondMove, firstWin, secondWin]
    exact congrArg (Prod.mk · second) (entry_fat12 _ _ clst (UInt8.toNat_lt _))
  | fat16 =>
    have room := room_fat16 volume mounted clst inRange.2 kind
    obtain ⟨after, moved, same, shown, win⟩ := move_window_fat volume sound _ room
    refine ⟨after, ?_, seen_links volume after mounted same
      (apart_shown _ _ sound.placed _ room shown)⟩
    rw [getFat, if_neg within, Volume.link]
    simp only [kind, show sectorSize / 2 = 256 from rfl, moved, ld_word_loads, win]
  | fat32 =>
    have room := room_fat32 volume mounted clst inRange.2 kind
    obtain ⟨after, moved, same, shown, win⟩ := move_window_fat volume sound _ room
    refine ⟨after, ?_, seen_links volume after mounted same
      (apart_shown _ _ sound.placed _ room shown)⟩
    have mask : (0x0FFFFFFF : Nat) = 2 ^ 28 - 1 := rfl
    rw [getFat, if_neg within, Volume.link]
    simp only [kind, show sectorSize / 4 = 128 from rfl, moved, ld_dword_loads, win, mask,
      Nat.and_two_pow_sub_one_eq_mod]

/-- A byte of the FAT put through the window. The other bytes of the sector are as before. -/
theorem put_win_fat_byte (volume : Volume) (sound : Sound volume) (offset other : Nat) (byte : u8)
    (inside : offset / sectorSize < volume.fs.fsize)
    (shown : volume.fs.winsect = volume.fs.fatbase + offset / sectorSize) :
    (volume.putWin (volume.fs.win.set (offset % sectorSize) byte)).fatByte other =
      if other = offset then byte.toNat else volume.fatByte other := by
  have size : sectorSize = 512 := rfl
  have window := fat_sector_window volume _ sound.placed.reserved shown
  obtain ⟨_, views⟩ := put_win_sound volume sound _ inside shown
    (volume.fs.win.set (offset % sectorSize) byte) (by rw [List.length_set]; exact sound.filled)
  have fields : (volume.putWin (volume.fs.win.set (offset % sectorSize) byte)).fs.fatbase =
    volume.fs.fatbase := rfl
  rw [Volume.fatByte, Volume.fatSector, fields, views]
  by_cases together : other / sectorSize = offset / sectorSize
  · rw [if_pos (by rw [together]),
      byte_at_set _ _ _ _ (by rw [sound.filled]; exact Nat.mod_lt _ (by decide)),
      Volume.fatByte, together, window]
    by_cases same : other = offset
    · rw [if_pos (by rw [same]), if_pos same]
    · have apart : other % sectorSize ≠ offset % sectorSize := by
        rw [size] at together ⊢
        omega
      rw [if_neg apart, if_neg same]
  · rw [if_neg (fun equal => together (Nat.add_left_cancel equal)),
      if_neg (fun same => together (by rw [same]))]
    rfl

/-- A word of the FAT put through the window. Words of one width are the same or apart. -/
theorem put_win_word (volume : Volume) (sound : Sound volume) (number other : Nat)
    (inside : number < volume.fs.fsize)
    (shown : volume.fs.winsect = volume.fs.fatbase + number) (width offset place val : Nat)
    (fits : offset + width ≤ sectorSize)
    (aligned : place = offset ∨ place + width ≤ offset ∨ offset + width ≤ place) :
    loadWord width place
        ((volume.putWin (storeWord width offset val volume.fs.win)).fatSector other) =
      if other = number ∧ place = offset then val % 256 ^ width
      else loadWord width place (volume.fatSector other) := by
  have window := fat_sector_window volume _ sound.placed.reserved shown
  obtain ⟨_, views⟩ := put_win_sound volume sound _ inside shown
    (storeWord width offset val volume.fs.win) (by rw [store_word_length]; exact sound.filled)
  have fields : (volume.putWin (storeWord width offset val volume.fs.win)).fs.fatbase =
    volume.fs.fatbase := rfl
  rw [Volume.fatSector, fields, views]
  by_cases together : other = number
  · subst together
    rw [if_pos rfl, window]
    by_cases same : place = offset
    · rw [if_pos ⟨rfl, same⟩, same, load_word_store_word _ _ _ _ (by rw [sound.filled]; exact fits)]
    · rw [if_neg (fun both => same both.2)]
      exact load_word_apart _ _ _ _ _ _ (by rw [sound.filled]; exact fits)
        (aligned.resolve_left same)
  · rw [if_neg (fun equal => together (Nat.add_left_cancel equal)),
      if_neg (fun both => together both.1)]
    rfl

/-- A mounted volume whose window over a sector of the FAT was changed. The copies follow when the
window is written back. -/
theorem put_win_mounted (volume after : Volume) (mounted : Mounted volume)
    (same : SeenSame volume after) (number : Nat) (inside : number < volume.fs.fsize)
    (shown : after.fs.winsect = volume.fs.fatbase + number) (win : List u8)
    (filled : win.length = sectorSize) :
    Mounted (after.putWin win) ∧ SameSystem volume.fs (after.putWin win).fs ∧
      ∀ other, OutsideFat volume.fs other →
        (after.putWin win).cache.view other = volume.cache.view other := by
  have kept := seen_mounted volume after mounted same
  have fields := same.system
  have base : after.fs.fatbase = volume.fs.fatbase := by rw [fields]
  have size : after.fs.fsize = volume.fs.fsize := by rw [fields]
  obtain ⟨sound, views⟩ := put_win_sound after same.sound number (size ▸ inside)
    (base ▸ shown) win filled
  refine ⟨⟨sound, kept.known, kept.present, kept.roomy, kept.limited⟩, ?_, fun other outside => ?_⟩
  · rw [SameSystem, Volume.putWin, fields]
  · have copied : volume.fs.fsize ≤ volume.fs.nFats * volume.fs.fsize :=
      Nat.le_mul_of_pos_left _ mounted.sound.placed.present
    rw [views, base, if_neg (by rw [OutsideFat] at outside; omega)]
    exact same.seen other (outside_primary volume.fs other outside)

/-- A byte of the FAT that is seen as before. It lies in a sector that is seen as before. -/
theorem seen_fat_byte (volume after : Volume) (same : SeenSame volume after) (offset : Nat)
    (inside : offset / sectorSize < volume.fs.fsize) :
    after.fatByte offset = volume.fatByte offset := by
  rw [Volume.fatByte, seen_fat_sector volume after same _ inside, Volume.fatByte]

/-- The two bytes of an entry behind a put, with the nibbles of its neighbours. An odd entry has
the upper nibble of the first byte, an even one the lower nibble of the second. -/
def packed12 (bytes : Nat → Nat) (clst val : Nat) : Nat → Nat :=
  let bc := clst + clst / 2
  let low := if clst % 2 = 1 then bytes bc % 16 + 16 * (val % 16) else val % 256
  let high := if clst % 2 = 1 then val / 16 % 256
    else 16 * (bytes (bc + 1) / 16) + val / 256 % 16
  fun offset => if offset = bc + 1 then high else if offset = bc then low else bytes offset

/-- An entry out of the two bytes at its place. The two bytes may lie in two sectors. -/
def entry12 (bytes : Nat → Nat) (clst : Nat) : Nat :=
  let bc := clst + clst / 2
  if clst % 2 = 1 then bytes bc / 16 + 16 * bytes (bc + 1)
  else bytes bc + 256 * (bytes (bc + 1) % 16)

/-- The bytes beside the two stay. An entry of FAT12 takes a byte and a half. -/
theorem packed12_elsewhere (bytes : Nat → Nat) (clst val offset : Nat)
    (notFirst : offset ≠ clst + clst / 2) (notSecond : offset ≠ clst + clst / 2 + 1) :
    packed12 bytes clst val offset = bytes offset := by
  simp only [packed12]
  rw [if_neg notSecond, if_neg notFirst]

/-- A packed entry is read again, and no other has changed. Neighbours share a byte, and each
keeps its nibble. -/
theorem entry12_packed12 (bytes : Nat → Nat) (clst val other : Nat) :
    entry12 (packed12 bytes clst val) other =
      if other = clst then val % 2 ^ 12 else entry12 bytes other := by
  have places : other = clst ∨ other = clst + 1 ∧ clst % 2 = 0 ∨ clst = other + 1 ∧ clst % 2 = 1 ∨
      other ≠ clst ∧ clst + clst / 2 + 1 < other + other / 2 ∨
      other ≠ clst ∧ other + other / 2 + 1 < clst + clst / 2 := by omega
  rcases places with rfl | ⟨rfl, even⟩ | ⟨rfl, odd⟩ | ⟨different, behind⟩ | ⟨different, before⟩
  · simp only [entry12, packed12, if_true]
    rcases Nat.mod_two_eq_zero_or_one other with even | odd
    · simp only [even, Nat.zero_ne_one, if_false]
      rw [if_neg (by omega)]
      omega
    · simp only [odd, if_true]
      rw [if_neg (by omega)]
      omega
  · -- The odd neighbour has the high nibble of the shared byte.
    have shared : clst + 1 + (clst + 1) / 2 = clst + clst / 2 + 1 := by omega
    have next : (clst + 1) % 2 = 1 := by omega
    have later : clst + 1 ≠ clst := by omega
    simp only [entry12, packed12, shared, even, next, if_true, if_neg Nat.zero_ne_one, if_neg later]
    rw [if_neg (by omega), if_neg (by omega)]
    omega
  · -- The even neighbour has the low nibble.
    have shared : other + 1 + (other + 1) / 2 = other + other / 2 + 1 := by omega
    have last : other % 2 = 0 := by omega
    have earlier : other ≠ other + 1 := by omega
    simp only [entry12, packed12, shared, odd, last, if_true, if_neg Nat.zero_ne_one,
      if_neg earlier]
    rw [if_neg (by omega), if_neg (by omega), if_neg (by omega)]
    omega
  · have low := packed12_elsewhere bytes clst val (other + other / 2) (by omega) (by omega)
    have high := packed12_elsewhere bytes clst val (other + other / 2 + 1) (by omega) (by omega)
    simp only [entry12, low, high, if_neg different]
  · have low := packed12_elsewhere bytes clst val (other + other / 2) (by omega) (by omega)
    have high := packed12_elsewhere bytes clst val (other + other / 2 + 1) (by omega) (by omega)
    simp only [entry12, low, high, if_neg different]

/-- `put_fat` on a FAT12 volume, where the entry may lie in two sectors. Proof: the two bytes are
put one after the other, each through the window, and packed they are the new entry. -/
theorem put_fat_fat12 (volume : Volume) (mounted : Mounted volume) (clst val : Nat)
    (inRange : InRange volume.fs clst) (kind : volume.fs.fsType = .fat12) :
    ∃ after, putFat volume clst val = (.ok, after) ∧
      Relinked volume (Function.update volume.link clst (val % entryRange .fat12)) after := by
  have sound := mounted.sound
  have within := in_range volume clst inRange
  obtain ⟨firstRoom, secondRoom, small⟩ := room_fat12 volume mounted clst inRange.2 kind
  have sum : dwordSum clst (clst / 2) = clst + clst / 2 := dword_sum_small _ _ (by omega)
  obtain ⟨first, firstMove, firstSame, firstShown, firstWin⟩ :=
    move_window_fat volume sound _ firstRoom
  generalize lowIs : (if clst % 2 = 1 then
    (byteAt first.fs.win ((clst + clst / 2) % sectorSize) &&& (0x0F : u8)) |||
      (UInt8.ofNat val <<< (4 : u8)) else UInt8.ofNat val) = low
  obtain ⟨firstMounted, firstSystem, firstOthers⟩ := put_win_mounted volume first mounted firstSame
    _ firstRoom firstShown (first.fs.win.set ((clst + clst / 2) % sectorSize) low)
    (by rw [List.length_set]; exact firstSame.sound.filled)
  generalize changedIs :
    first.putWin (first.fs.win.set ((clst + clst / 2) % sectorSize) low) = changed
    at firstMounted firstSystem firstOthers
  have size : changed.fs.fsize = volume.fs.fsize := by rw [firstSystem]
  obtain ⟨second, secondMove, secondSame, secondShown, secondWin⟩ :=
    move_window_fat changed firstMounted.sound _ (size ▸ secondRoom)
  generalize highIs : (if clst % 2 = 1 then UInt8.ofNat (val >>> 4) else
    (byteAt second.fs.win ((clst + clst / 2 + 1) % sectorSize) &&& (0xF0 : u8)) |||
      (UInt8.ofNat (val >>> 8) &&& (0x0F : u8))) = high
  obtain ⟨mountedAfter, system, others⟩ := put_win_mounted changed second firstMounted secondSame
    _ (size ▸ secondRoom) secondShown
    (second.fs.win.set ((clst + clst / 2 + 1) % sectorSize) high)
    (by rw [List.length_set]; exact secondSame.sound.filled)
  have changedPlace : changed.fs.fatbase = volume.fs.fatbase := by rw [firstSystem]
  refine ⟨_, ?_, ⟨mountedAfter, ?_, apart_shown _ _ sound.placed _ secondRoom
    (changedPlace ▸ secondShown), fun other inside => ?_, fun other outside => ?_⟩⟩
  · rw [putFat, if_neg within]
    simp only [kind, sum, firstMove, lowIs, changedIs, secondMove, highIs]
  · exact same_system_trans _ _ _ firstSystem system
  · -- Byte by byte, the volume behind both puts holds the packed entry.
    have base : first.fs.fatbase = volume.fs.fatbase := by rw [firstSame.system]
    have firstSize : first.fs.fsize = volume.fs.fsize := by rw [firstSame.system]
    have changedBase : changed.fs.fatbase = volume.fs.fatbase := by rw [firstSystem]
    have secondBase : second.fs.fatbase = volume.fs.fatbase := by
      rw [secondSame.system]
      exact changedBase
    have secondSize : second.fs.fsize = volume.fs.fsize := by
      rw [secondSame.system]
      exact size
    have lowValue : low.toNat = if clst % 2 = 1 then
        volume.fatByte (clst + clst / 2) % 16 + 16 * (val % 16) else val % 256 := by
      rw [← lowIs, firstWin]
      split
      · exact put_high _ val
      · exact UInt8.toNat_ofNat'
    have firstBytes : ∀ place, place / sectorSize < volume.fs.fsize → changed.fatByte place =
        if place = clst + clst / 2 then low.toNat else volume.fatByte place := by
      intro place room
      rw [← changedIs, put_win_fat_byte first firstSame.sound _ place low (firstSize ▸ firstRoom)
        (base ▸ firstShown), seen_fat_byte volume first firstSame place room]
    have highValue : high.toNat = if clst % 2 = 1 then val / 16 % 256
        else 16 * (volume.fatByte (clst + clst / 2 + 1) / 16) + val / 256 % 16 := by
      have old := firstBytes _ secondRoom
      rw [if_neg (by omega)] at old
      rw [← highIs, secondWin, ← old]
      split
      · rw [UInt8.toNat_ofNat', Nat.shiftRight_eq_div_pow]
      · exact put_low _ val
    have bytes : ∀ place, place / sectorSize < volume.fs.fsize →
        (second.putWin (second.fs.win.set ((clst + clst / 2 + 1) % sectorSize) high)).fatByte
          place = packed12 volume.fatByte clst val place := by
      intro place room
      rw [put_win_fat_byte second secondSame.sound _ place high (secondSize ▸ secondRoom)
        (by rw [secondShown, secondBase, changedBase]),
        seen_fat_byte changed second secondSame place (size ▸ room), firstBytes place room,
        lowValue,
        highValue, packed12]
    obtain ⟨otherFirst, otherSecond, _⟩ := room_fat12 volume mounted other inside kind
    have type : (second.putWin (second.fs.win.set ((clst + clst / 2 + 1) % sectorSize)
      high)).fs.fsType
        = .fat12 := by
      rw [system, firstSystem]
      exact kind
    have packed := entry12_packed12 volume.fatByte clst val other
    rw [Volume.link, type, Function.update_apply, entryRange, Volume.link, kind]
    simp only [bytes _ otherFirst, bytes _ otherSecond]
    exact packed
  · have same : OutsideFat changed.fs other := by
      rw [OutsideFat, firstSystem]
      exact outside
    rw [others other same, firstOthers other outside]

/-- `put_fat` on a FAT16 volume. The entry lies in one sector. -/
theorem put_fat_fat16 (volume : Volume) (mounted : Mounted volume) (clst val : Nat)
    (inRange : InRange volume.fs clst) (kind : volume.fs.fsType = .fat16) :
    ∃ after, putFat volume clst val = (.ok, after) ∧
      Relinked volume (Function.update volume.link clst (val % entryRange .fat16)) after := by
  have sound := mounted.sound
  have within := in_range volume clst inRange
  have room := room_fat16 volume mounted clst inRange.2 kind
  obtain ⟨moved, move, same, shown, win⟩ := move_window_fat volume sound _ room
  have fits : clst * 2 % sectorSize + 2 ≤ moved.fs.win.length := by
    rw [same.sound.filled, sectorSize]
    omega
  obtain ⟨kept, system, others⟩ := put_win_mounted volume moved mounted same _ room shown
    (storeWord 2 (clst * 2 % sectorSize) val moved.fs.win)
    (by rw [store_word_length]; exact same.sound.filled)
  refine ⟨_, ?_, ⟨kept, system, apart_shown _ _ sound.placed _ room shown,
    fun other inside => ?_, others⟩⟩
  · rw [putFat, if_neg within]
    simp only [kind, show sectorSize / 2 = 256 from rfl, move, st_word_stores]
  · have size : moved.fs.fsize = volume.fs.fsize := by rw [same.system]
    have base : moved.fs.fatbase = volume.fs.fatbase := by rw [same.system]
    have type : moved.fs.fsType = .fat16 := by rw [same.system]; exact kind
    have word := put_win_word moved same.sound (clst / 256) (other / 256) (size ▸ room)
      (base ▸ shown) 2 (clst * 2 % sectorSize) (other * 2 % sectorSize) val
      (by rw [sectorSize]; omega) (by rw [sectorSize]; omega)
    have before := seen_fat_sector volume moved same _
      (room_fat16 volume mounted other inside kind)
    simp only [Volume.link, Volume.putWin, type] at word ⊢
    rw [word, before, Function.update_apply, entryRange]
    by_cases equal : other = clst
    · rw [if_pos (by rw [equal]; exact ⟨rfl, rfl⟩), if_pos equal]
      rfl
    · rw [if_neg (by rw [sectorSize]; omega), if_neg equal, Volume.link, kind]

/-- `put_fat` on a FAT32 volume, where the upper bits stay. The entry lies in one sector. -/
theorem put_fat_fat32 (volume : Volume) (mounted : Mounted volume) (clst val : Nat)
    (inRange : InRange volume.fs clst) (kind : volume.fs.fsType = .fat32) :
    ∃ after, putFat volume clst val = (.ok, after) ∧
      Relinked volume (Function.update volume.link clst (val % entryRange .fat32)) after := by
  have sound := mounted.sound
  have within := in_range volume clst inRange
  have room := room_fat32 volume mounted clst inRange.2 kind
  obtain ⟨moved, move, same, shown, win⟩ := move_window_fat volume sound _ room
  generalize old : loadWord 4 (clst * 4 % sectorSize) moved.fs.win = kept
  obtain ⟨mountedAfter, system, others⟩ := put_win_mounted volume moved mounted same _ room shown
    (storeWord 4 (clst * 4 % sectorSize) (val ||| kept &&& 0xF0000000) moved.fs.win)
    (by rw [store_word_length]; exact same.sound.filled)
  refine ⟨_, ?_, ⟨mountedAfter, system, apart_shown _ _ sound.placed _ room shown,
    fun other inside => ?_, others⟩⟩
  · rw [putFat, if_neg within]
    simp only [kind, show sectorSize / 4 = 128 from rfl, move, st_dword_stores, ld_dword_loads, old]
  · have size : moved.fs.fsize = volume.fs.fsize := by rw [same.system]
    have base : moved.fs.fatbase = volume.fs.fatbase := by rw [same.system]
    have type : moved.fs.fsType = .fat32 := by rw [same.system]; exact kind
    have word := put_win_word moved same.sound (clst / 128) (other / 128) (size ▸ room)
      (base ▸ shown) 4 (clst * 4 % sectorSize) (other * 4 % sectorSize)
      (val ||| kept &&& 0xF0000000) (by rw [sectorSize]; omega) (by rw [sectorSize]; omega)
    have before := seen_fat_sector volume moved same _
      (room_fat32 volume mounted other inside kind)
    simp only [Volume.link, Volume.putWin, type] at word ⊢
    rw [word, before, Function.update_apply, entryRange]
    by_cases equal : other = clst
    · have nested : (val ||| kept &&& 0xF0000000) % 256 ^ 4 % 2 ^ 28 =
          (val ||| kept &&& 0xF0000000) % 2 ^ 28 := Nat.mod_mod_of_dvd _ (by decide)
      rw [if_pos (by rw [equal]; exact ⟨rfl, rfl⟩), if_pos equal, nested, reserved_bits]
    · rw [if_neg (by rw [sectorSize]; omega), if_neg equal, Volume.link, kind]

/-- `put_fat` links a cluster and no other. Proof: one case for each type of FAT. -/
theorem put_fat_links (volume : Volume) (mounted : Mounted volume) (clst val : Nat)
    (inRange : InRange volume.fs clst) :
    ∃ after, putFat volume clst val = (.ok, after) ∧
      Relinked volume (Function.update volume.link clst (val % entryRange volume.fs.fsType))
        after := by
  cases kind : volume.fs.fsType with
  | unmounted => exact absurd kind mounted.known
  | fat12 => exact put_fat_fat12 volume mounted clst val inRange kind
  | fat16 => exact put_fat_fat16 volume mounted clst val inRange kind
  | fat32 => exact put_fat_fat32 volume mounted clst val inRange kind

/-! ## A small volume -/

/-- A FAT12 volume of four clusters and two FATs, over a disk of zeros, with changed FAT entries in
the window. -/
def smallVolume (win : List u8) : Volume where
  fs :=
    { fsType := .fat12, csize := 1, nFats := 2, wflag := true, fsiFlag := false, id := 1,
      nRootdir := 16, lastClust := 0, freeClust := 0xFFFFFFFF, fsiSector := 0, nFatent := 6,
      fsize := 1, fatbase := 1, dirbase := 3, database := 4, winsect := 1, win }
  pDisk0 := ⟨List.replicate diskSize 0, 0⟩
  beyond := 0

/-- A sector of a FAT that starts with the given bytes. The rest of it is free entries. -/
def fatStart (bytes : List u8) : List u8 := bytes ++ List.replicate (sectorSize - bytes.length) 0

/-- The sector that begins with these bytes is a whole sector. It is filled up with zeros. -/
theorem fat_start_length (bytes : List u8) (short : bytes.length ≤ sectorSize) :
    (fatStart bytes).length = sectorSize := by
  rw [fatStart, List.length_append, List.length_replicate, Nat.add_sub_cancel' short]

/-- The small volume is mounted. Each of the conditions is a computation on its few fields. -/
theorem small_volume_mounted (win : List u8) (filled : win.length = sectorSize) :
    Mounted (smallVolume win) where
  sound :=
    { placed := ⟨Nat.one_pos, Nat.two_pos, show 1 + 2 * 1 ≤ sectorCount by decide⟩
      complete := by rw [smallVolume, List.length_replicate]
      filled
      within := show 1 < sectorCount by decide
      behind := fun _ => Nat.le_refl _
      coherent := ⟨fun _ _ clean => absurd clean Bool.noConfusion,
        fun _ => ⟨1, rfl, primary_outside _ 1 (Or.inl (show 1 < 1 + 1 by decide))⟩, by
          intro number clean copy isCopy
          obtain ⟨above, below, _⟩ := (mem_copies _ number copy).mp isCopy
          have held : number = 1 := by
            have small : number < 2 := below
            have large : 1 ≤ number := above
            omega
          exact absurd (clean (by rw [held]; rfl)) Bool.noConfusion⟩ }
  known := show FsType.fat12 ≠ .unmounted by decide
  present := show 2 < 6 by decide
  roomy := show requiredSize .fat12 6 ≤ sectorSize * 1 by decide
  limited := show 6 < entryRange .fat12 by decide

/-- A byte of the FAT of the small volume is one of its window. The window holds the first sector
of the FAT. -/
theorem small_volume_fat_byte (win : List u8) (offset : Nat) (first : offset < sectorSize) :
    (smallVolume win).fatByte offset = (byteAt win offset).toNat := by
  rw [Volume.fatByte, Nat.div_eq_of_lt first, Nat.mod_eq_of_lt first]
  rfl

/-- The links of the small volume are the entries in its window. There are six, of twelve bits
each. -/
theorem small_volume_link (win : List u8) (clst : Nat) (inside : clst < 6) :
    (smallVolume win).link clst = entry12 (fun offset => (byteAt win offset).toNat) clst := by
  have size : sectorSize = 512 := rfl
  have low := small_volume_fat_byte win (clst + clst / 2) (by omega)
  have high := small_volume_fat_byte win (clst + clst / 2 + 1) (by omega)
  have fat12 : (smallVolume win).link clst = entry12 (smallVolume win).fatByte clst := rfl
  simp only [fat12, entry12, low, high]

end EffiLib.FatFs
