import EffiLib.FatFs.RootDirectory
import EffiLib.Library.SlotTables

/-!
# The root directory as a map

A static root directory holds a map from names to entries. Searching, registering and removing
names keep it: an entry is found exactly when its name is in the map, a new name takes a blank
or deleted entry as long as there is one, and every other entry stays as it is.
-/

namespace EffiLib.FatFs

open Buffers Sectors BlockCache LittleEndian SlotTables

/-- The name of an entry in use that is no volume label. A blank entry has none. -/
def entryName (dir : List u8) : Option (List u8) :=
  if byteAt dir 0 = 0 ∨ byteAt dir 0 = dde ∨ byteAt dir dirAttr &&& amVol ≠ 0 then none
  else some (dir.take 11)

/-- The entries of a directory as slots of a table. A deleted entry is blank but was used. -/
def dirReading : Reading (List u8) (List u8) where
  name := entryName
  blank dir := decide (byteAt dir 0 = dde ∨ byteAt dir 0 = 0)
  unused dir := decide (byteAt dir 0 = 0)
  unnamed _ empty :=
    if_pos ((of_decide_eq_true empty).elim (fun deleted => .inr (.inl deleted)) .inl)
  fresh _ ended := decide_eq_true (.inr (of_decide_eq_true ended))

/-- A name in the form of a directory entry: eleven bytes that mark no blank entry. `create_name`
makes no others. -/
structure ValidName (fn : List u8) : Prop where
  length : fn.length = 11
  used : byteAt fn 0 ≠ 0
  kept : byteAt fn 0 ≠ dde

/-- A cleared entry with a name. It is a file of size zero without clusters. -/
def newEntry (fn : List u8) : List u8 := fn ++ List.replicate (szDir - 11) 0

/-- The directory object for a name in the root directory. It is what `follow_path` leaves in
front of the search. -/
def rootObject (fn : List u8) : DIR := ⟨0, 0, 0, 0, 0, fn⟩

/-- What is asked of a directory. Each is a search in the first place. -/
inductive DirRequest where
  | find (fn : List u8)
  | create (fn : List u8)
  | remove (fn : List u8)

/-- The name that a request is about. It is in the form of an entry. -/
def DirRequest.name : DirRequest → List u8
  | .find fn => fn
  | .create fn => fn
  | .remove fn => fn

/-- The entry that a directory object has come to. It is read from the window. -/
def reached (res : FResult) (dj : DIR) (volume : Volume) : Option (List u8) :=
  if res = .ok then some (dj.entry volume.fs.win) else none

/-- The last step of a creation, as `f_open` makes it: a name that is not there is
registered. -/
def createMissing (res : FResult) (dj : DIR) (volume : Volume) :
    Run ((FResult × Option (List u8)) × Volume) :=
  if res = .noFile then do
    let (res, dj, volume) ← dirRegister volume dj
    .ok ((res, reached res dj volume), volume)
  else .ok ((res, reached res dj volume), volume)

/-- The last step of a removal, as `f_unlink` makes it: an entry that is there is removed. The
clusters of the file are a matter of the FAT. -/
def removeFound (res : FResult) (dj : DIR) (volume : Volume) :
    Run ((FResult × Option (List u8)) × Volume) :=
  if res = .ok then do
    let (res, _, volume) ← dirRemove volume dj
    .ok ((res, none), volume)
  else .ok ((res, none), volume)

/-- A request to the root directory. Creating a name that is there finds it. -/
def Volume.answer (volume : Volume) : DirRequest → Run ((FResult × Option (List u8)) × Volume)
  | .find fn => do
    let (res, dj, volume) ← dirFind volume (rootObject fn)
    .ok ((res, reached res dj volume), volume)
  | .create fn => do
    let (res, dj, volume) ← dirFind volume (rootObject fn)
    createMissing res dj volume
  | .remove fn => do
    let (res, dj, volume) ← dirFind volume (rootObject fn)
    removeFound res dj volume

/-- Requests one after another, with their replies. A fault would end them. -/
def Volume.answerAll (volume : Volume) : List DirRequest →
    Run (List (FResult × Option (List u8)) × Volume)
  | [] => .ok ([], volume)
  | request :: rest => do
    let (reply, volume) ← volume.answer request
    let (replies, volume) ← volume.answerAll rest
    .ok (reply :: replies, volume)

/-- The map that a directory stands for: the entry of each name, and how many entries may still
be taken. -/
structure EntryMap where
  entries : List u8 → Option (List u8)
  free : Nat

/-- The name is given an entry. One blank entry less is left. -/
def EntryMap.insert (names : EntryMap) (fn : List u8) : EntryMap :=
  ⟨Function.update names.entries fn (some (newEntry fn)), names.free - 1⟩

/-- The name has no entry any more. Its entry is blank then. -/
def EntryMap.erase (names : EntryMap) (fn : List u8) : EntryMap :=
  ⟨Function.update names.entries fn none, names.free + 1⟩

/-- A request to the map. It says what a directory is for. -/
def EntryMap.answer (names : EntryMap) : DirRequest → (FResult × Option (List u8)) × EntryMap
  | .find fn =>
    match names.entries fn with
    | some dir => ((.ok, some dir), names)
    | none => ((.noFile, none), names)
  | .create fn =>
    match names.entries fn with
    | some dir => ((.ok, some dir), names)
    | none =>
      if names.free = 0 then ((.noFile, none), names)
      else ((.ok, some (newEntry fn)), names.insert fn)
  | .remove fn =>
    match names.entries fn with
    | some _ => ((.ok, none), names.erase fn)
    | none => ((.noFile, none), names)

/-- Requests to the map one after another, with their replies. Nothing can fault here. -/
def EntryMap.answerAll (names : EntryMap) : List DirRequest →
    List (FResult × Option (List u8)) × EntryMap
  | [] => ([], names)
  | request :: rest =>
    ((names.answer request).1 :: ((names.answer request).2.answerAll rest).1,
      ((names.answer request).2.answerAll rest).2)

/-- The root directory of a volume stands for a map. It is the invariant of a run of requests. -/
structure DirectoryHolds (volume : Volume) (names : EntryMap) : Prop where
  mounted : Mounted volume
  root : RootPlaced volume.fs
  orderly : Orderly dirReading volume.fs.nRootdir volume.slot
  represents : SlotTables.Represents dirReading volume.fs.nRootdir volume.slot names.entries
  counted : blanks dirReading volume.fs.nRootdir volume.slot = names.free

/-! ## Entries -/

/-- An entry is 32 bytes. There are sixteen of them in a sector. -/
theorem slot_length (volume : Volume) (mounted : Mounted volume) (root : RootPlaced volume.fs)
    (i : Nat) (inside : i < volume.fs.nRootdir) : (volume.slot i).length = szDir := by
  have room := root.inside
  have aligned := root.aligned
  have per : dirsPerSector = 16 := rfl
  have entry : szDir = 32 := rfl
  have sector : sectorSize = 512 := rfl
  have whole := view_length volume mounted.sound (volume.fs.dirbase + i / dirsPerSector)
    (by rw [per]; omega)
  rw [Volume.slot, List.length_take, List.length_drop, whole, per, entry, sector]
  omega

/-- An entry that is overwritten at its beginning keeps what is behind. The rest of the entry is
as before. -/
theorem entry_overwritten (win bytes : List u8) (offset : Nat) (inside : offset ≤ win.length)
    (short : bytes.length ≤ szDir) :
    ((overwrite win offset bytes).drop offset).take szDir =
      bytes ++ ((win.drop offset).take szDir).drop bytes.length := by
  have front : (win.take offset).length = offset := List.length_take_of_le inside
  have behind : (overwrite win offset bytes).drop offset =
      bytes ++ win.drop (offset + bytes.length) := by
    rw [overwrite, List.append_assoc]
    exact List.drop_left' front
  rw [behind, List.take_append, List.take_of_length_le short, List.drop_take, List.drop_drop]

/-- Bytes are put into an entry of the root directory, and all others stay. They may be the whole
entry or its front. -/
theorem put_entry_root (volume : Volume) (mounted : Mounted volume) (root : RootPlaced volume.fs)
    (dj : DIR) (j : Nat) (inside : j < volume.fs.nRootdir) (bytes : List u8)
    (short : bytes.length ≤ szDir) :
    ∃ after, putEntry volume (dj.atRoot volume.fs j) bytes = (.ok, after) ∧ Mounted after ∧
      SameBeside volume after ∧
      after.slot j = bytes ++ (volume.slot j).drop bytes.length ∧
      (∀ k < volume.fs.nRootdir, k ≠ j → after.slot k = volume.slot k) ∧
      (dj.atRoot volume.fs j).entry after.fs.win = after.slot j := by
  obtain ⟨moved, done, same, shown, window⟩ := move_window_root volume mounted root j inside
  have system := same.system
  have movedMounted := seen_mounted volume moved mounted same
  have per : dirsPerSector = 16 := rfl
  have size : szDir = 32 := rfl
  have bytesPer : sectorSize = 512 := rfl
  have positive : 0 < moved.fs.winsect := by
    have behind := root.behind
    have reserved := mounted.sound.placed.reserved
    rw [shown, per]
    omega
  have base : moved.fs.dirbase = volume.fs.dirbase := by rw [system]
  have behind := root.behind
  have room := root.inside
  have aligned := root.aligned
  have reserved := mounted.sound.placed.reserved
  have filled := movedMounted.sound.filled
  generalize blockIs : overwrite moved.fs.win (j % dirsPerSector * szDir) bytes = block
  have fits : j % dirsPerSector * szDir + bytes.length ≤ moved.fs.win.length := by
    rw [filled, per, bytesPer, size]
    rw [size] at short
    omega
  have length : block.length = sectorSize := by
    rw [← blockIs, overwrite_length _ _ _ fits, filled]
  have late : moved.fs.fatbase + moved.fs.nFats * moved.fs.fsize ≤ moved.fs.winsect := by
    rw [shown, system]
    exact behind.trans (Nat.le_add_right _ _)
  obtain ⟨afterMounted, modified, others, links⟩ :=
    modified_mounted moved movedMounted block length late
  have seen :
      (moved.modified block).cache.view (volume.fs.dirbase + j / dirsPerSector) = block := by
    rw [modified, Cache.view, if_pos]
    · rfl
    · show moved.cache.held = _
      rw [← shown]
      exact if_neg (by omega)
  have here : (moved.modified block).slot j =
      (block.drop (j % dirsPerSector * szDir)).take szDir := by
    have place : (moved.modified block).fs.dirbase = volume.fs.dirbase := base
    rw [Volume.slot, place, seen]
  have count : moved.fs.nFatent = volume.fs.nFatent := by rw [system]
  refine ⟨moved.modified block, ?_, afterMounted, ⟨?_, fun clst below => ?_,
    fun number outside beside => ?_⟩, ?_, fun k below apart => ?_, ?_⟩
  · have place : (dj.atRoot volume.fs j).sect = volume.fs.dirbase + j / dirsPerSector := rfl
    rw [putEntry, place, done, ← blockIs]
    rfl
  · rw [SameSystem, Volume.modified, system]
  · rw [links clst (by rw [count]; exact below)]
    exact seen_link volume moved mounted same clst below
  · have away : moved.fs.winsect ≠ number := by
      rw [shown, per]
      omega
    rw [others number away]
    exact same.seen number (outside_primary volume.fs number outside)
  · have before : (moved.fs.win.drop (j % dirsPerSector * szDir)).take szDir = volume.slot j := by
      rw [window]
      rfl
    rw [here, ← blockIs, entry_overwritten _ _ _ (by omega) short, before]
  · have place : (moved.modified block).fs.dirbase = volume.fs.dirbase := base
    rw [Volume.slot, Volume.slot, place]
    by_cases sector : k / dirsPerSector = j / dirsPerSector
    · rw [sector, seen, ← window, ← blockIs]
      rw [per] at sector
      rw [per, size] at fits ⊢
      rcases Nat.lt_or_gt_of_ne (show k % 16 ≠ j % 16 by omega) with less | more
      · exact overwrite_front _ _ _ _ _ fits (by omega)
      · rw [overwrite_behind _ _ _ _ fits (by omega)]
    · rw [others _ (by
        rw [shown]
        exact fun together => sector (Nat.add_left_cancel together).symm),
        same.seen _ (outside_primary volume.fs _ (Or.inr (by rw [per]; omega)))]
  · rw [here]
    rfl

/-! ## Names -/

/-- The first byte of an entry is the first of its name. It tells whether the entry is used. -/
theorem first_byte (dir : List u8) : byteAt (dir.take 11) 0 = byteAt dir 0 := by
  cases dir <;> rfl

/-- An entry that a search passes does not hold the name. So a name that the search does not find
is not there. -/
theorem passed_unnamed (fn dir : List u8) (passed : namedEntry fn dir = none) :
    entryName dir ≠ some fn := by
  intro named
  rw [namedEntry] at passed
  rw [entryName] at named
  split at named
  · cases named
  · rename_i used
    rw [not_or, not_or, not_not] at used
    have same : dir.take 11 = fn := Option.some.inj named
    rw [if_neg used.1, if_pos ⟨used.2.2, same⟩] at passed
    cases passed

/-- An entry that ends a search holds the name or was never used. The other entries are passed. -/
theorem ended_named (fn dir : List u8) (valid : ValidName fn) (res : FResult)
    (ended : namedEntry fn dir = some res) :
    (res = .ok ∧ entryName dir = some fn) ∨ (res = .noFile ∧ byteAt dir 0 = 0) := by
  rw [namedEntry] at ended
  split at ended
  · rename_i unused
    exact .inr ⟨(Option.some.inj ended).symm, unused⟩
  · rename_i used
    split at ended
    · rename_i named
      refine .inl ⟨(Option.some.inj ended).symm, ?_⟩
      have kept : byteAt dir 0 ≠ dde := by
        rw [← first_byte, named.2]
        exact valid.kept
      rw [entryName, if_neg, named.2]
      rintro (unused | deleted | label)
      · exact used unused
      · exact kept deleted
      · exact label named.1
    · cases ended

/-- A new entry holds its name and is not blank. So it is found, and a search goes on behind
it. -/
theorem new_entry_named (fn : List u8) (valid : ValidName fn) :
    entryName (newEntry fn) = some fn ∧ dirReading.blank (newEntry fn) = false ∧
      dirReading.unused (newEntry fn) = false := by
  have front : (newEntry fn).take 11 = fn := List.take_left' valid.length
  have first : byteAt (newEntry fn) 0 = byteAt fn 0 := by rw [← first_byte, front]
  have cleared : byteAt (newEntry fn) dirAttr = 0 := by
    rw [byteAt, newEntry, List.getD_eq_getElem?_getD,
      List.getElem?_append_right (by rw [valid.length]; decide), valid.length]
    rfl
  refine ⟨?_, decide_eq_false ?_, decide_eq_false ?_⟩
  · rw [entryName, if_neg, front]
    rw [first, cleared]
    rintro (unused | deleted | label)
    · exact valid.used unused
    · exact valid.kept deleted
    · exact label (by decide)
  · rw [first]
    exact fun blank => blank.elim valid.kept valid.used
  · rw [first]
    exact valid.used

/-- A deleted entry holds no name and is blank, but it was used. So the search for a name goes on
behind it. -/
theorem deleted_unnamed (rest : List u8) :
    entryName ([dde] ++ rest) = none ∧ dirReading.blank ([dde] ++ rest) = true ∧
      dirReading.unused ([dde] ++ rest) = false :=
  ⟨if_pos (.inr (.inl rfl)), decide_eq_true (Or.inl rfl : dde = dde ∨ dde = 0),
    decide_eq_false (show ¬ dde = 0 by decide)⟩

/-! ## Requests -/

section Requests

variable (volume : Volume) (names : EntryMap) (holds : DirectoryHolds volume names)

include holds

/-- What is seen as before stands for the same map. The entries are read from sectors that are
seen as before. -/
theorem holds_seen (after : Volume) (same : SeenSame volume after) : DirectoryHolds after
    names := by
  have slots : after.slot = volume.slot :=
    funext fun i => seen_slot volume holds.mounted holds.root after same i
  have count : after.fs.nRootdir = volume.fs.nRootdir := by rw [same.system]
  refine ⟨seen_mounted volume after holds.mounted same,
    root_placed_same _ _ holds.root same.system, ?_, ?_, ?_⟩ <;> rw [slots, count]
  · exact holds.orderly
  · exact holds.represents
  · exact holds.counted

/-- A search goes to the entry of a name, or finds that there is none. The window shows the
entry. -/
theorem dir_find_root (fn : List u8) (valid : ValidName fn) :
    ∃ res final after, dirFind volume (rootObject fn) = .ok (res, final, after) ∧
      SeenSame volume after ∧ final.sclust = 0 ∧ final.fn = fn ∧
      ((∃ j < volume.fs.nRootdir, names.entries fn = some (volume.slot j) ∧
        entryName (volume.slot j) = some fn ∧ res = .ok ∧ final.index = j ∧
        final.entry after.fs.win = volume.slot j) ∨ (names.entries fn = none ∧ res = .noFile)) := by
  obtain ⟨res, final, after, ran, same, scanned⟩ := scan_from_start_scans (namedEntry fn) false
    volume holds.mounted holds.root (rootObject fn) rfl
  have absent : (∀ k < volume.fs.nRootdir, entryName (volume.slot k) ≠ some fn) →
      names.entries fn = none := by
    intro nowhere
    cases found : names.entries fn with
    | none => rfl
    | some dir =>
      obtain ⟨k, below, named, _⟩ := (holds.represents fn dir).mp found
      exact absurd named (nowhere k below)
  refine ⟨res, final, after, ran, same, ?_⟩
  cases scanned with
  | found j res after late inside passed ended shown =>
    refine ⟨rfl, rfl, ?_⟩
    rcases ended_named fn _ valid res ended with ⟨rfl, named⟩ | ⟨rfl, unused⟩
    · refine .inl ⟨j, inside, ?_, named, rfl, rfl, shown⟩
      exact (holds.represents fn _).mpr ⟨j, inside, named, rfl⟩
    · refine .inr ⟨absent fun k below named => ?_, rfl⟩
      -- Behind the first entry that was never used there is no other.
      by_cases early : k < j
      · exact passed_unnamed fn _ (passed k (Nat.zero_le _) early) named
      · have empty : byteAt (volume.slot k) 0 = 0 := by
          rcases Nat.eq_or_lt_of_le (Nat.le_of_not_lt early) with rfl | behind
          · exact unused
          · exact of_decide_eq_true
              (holds.orderly.behind j k behind below (decide_eq_true unused))
        rw [entryName, if_pos (.inl empty)] at named
        cases named
  | exhausted final after passed own named =>
    refine ⟨own, named, .inr ⟨absent fun k below => ?_, rfl⟩⟩
    exact passed_unnamed fn _ (passed k (Nat.zero_le _) below)

/-- A changed entry of a used slot leaves the others in order. What the entries stand for, and how
many of them are blank, is asked of the new volume. -/
theorem holds_changed (after : Volume) (mounted : Mounted after)
    (beside : SameBeside volume after) (changedMap : EntryMap)
    (orderly : Orderly dirReading volume.fs.nRootdir after.slot)
    (represents : SlotTables.Represents dirReading volume.fs.nRootdir after.slot changedMap.entries)
    (counted : blanks dirReading volume.fs.nRootdir after.slot = changedMap.free) :
    DirectoryHolds after changedMap := by
  have count : after.fs.nRootdir = volume.fs.nRootdir := by rw [beside.system]
  refine ⟨mounted, root_placed_same _ _ holds.root beside.system, ?_, ?_, ?_⟩ <;> rw [count]
  · exact orderly
  · exact represents
  · exact counted

/-- A name that is not there is registered as long as an entry is blank. It takes the first of
these. -/
theorem dir_register_root (dj : DIR) (own : dj.sclust = 0) (valid : ValidName dj.fn)
    (absent : names.entries dj.fn = none) :
    ∃ res final after, dirRegister volume dj = .ok (res, final, after) ∧
      SameBeside volume after ∧
      ((names.free = 0 ∧ res = .noFile ∧ DirectoryHolds after names) ∨
        (names.free ≠ 0 ∧ res = .ok ∧ final.entry after.fs.win = newEntry dj.fn ∧
          DirectoryHolds after (names.insert dj.fn))) := by
  obtain ⟨res, final, middle, ran, same, scanned⟩ := scan_from_start_scans blankEntry true volume
    holds.mounted holds.root dj own
  have entered := seen_beside volume holds.mounted middle same
  have held := holds_seen volume names holds middle same
  have slots : ∀ k, middle.slot k = volume.slot k :=
    seen_slot volume holds.mounted holds.root middle same
  have count : middle.fs.nRootdir = volume.fs.nRootdir := by rw [same.system]
  have reads : ∀ dir, blankEntry dir = none → dirReading.blank dir = false := by
    intro dir passed
    rw [blankEntry] at passed
    split at passed
    · cases passed
    · rename_i used
      exact decide_eq_false used
  rw [dirRegister, ran, ok_bind]
  dsimp only
  cases scanned with
  | exhausted final after passed _ _ =>
    have isZero : names.free = 0 := by
      rw [← holds.counted, blanks_none]
      exact fun k below => reads _ (passed k (Nat.zero_le _) below)
    rw [if_neg (by decide)]
    exact ⟨_, _, _, rfl, entered, .inl ⟨isZero, rfl, held⟩⟩
  | found j res after late inside passed ended shown =>
    have blank : dirReading.blank (middle.slot j) = true ∧ res = .ok := by
      rw [slots]
      rw [blankEntry] at ended
      split at ended
      · rename_i empty
        exact ⟨decide_eq_true empty, (Option.some.inj ended).symm⟩
      · cases ended
    obtain ⟨blank, rfl⟩ := blank
    have within : j < middle.fs.nRootdir := by rw [count]; exact inside
    have room : (dj.fn ++ List.replicate (szDir - 11) (0 : u8)).length = szDir := by
      rw [List.length_append, valid.length, List.length_replicate]
      rfl
    have place : dj.atRoot volume.fs j = dj.atRoot middle.fs j := by
      rw [DIR.atRoot, DIR.atRoot, same.system]
    obtain ⟨final, put, mounted, beside, slot, others, entry⟩ := put_entry_root middle
      held.mounted held.root dj j within _ room.le
    have written : final.slot j = newEntry dj.fn := by
      rw [slot, List.drop_of_length_le (by
        rw [slot_length middle held.mounted held.root j within, room]), List.append_nil]
      rfl
    obtain ⟨named, taken, used⟩ := new_entry_named dj.fn valid
    rw [← written] at named taken used
    have fewer := blanks_taken dirReading middle.fs.nRootdir middle.slot final.slot j within
      others blank taken
    rw [held.counted] at fewer
    rw [if_pos rfl, place]
    have made : (dj.atRoot middle.fs j).fn = dj.fn := rfl
    rw [made, put]
    refine ⟨_, _, _, rfl, same_beside_trans _ _ _ entered beside, .inr ⟨by omega, rfl, ?_, ?_⟩⟩
    · rw [entry, written]
    · refine holds_changed middle names held final mounted beside _ ?_ ?_ ?_
      · refine orderly_changed dirReading middle.fs.nRootdir middle.slot final.slot j others
          held.orderly (fun i early => ?_) used (fun key isKey i below apart holder => ?_)
        · have before := reads _ (passed i (Nat.zero_le _) early)
          rw [slots]
          by_contra unused
          rw [dirReading.fresh _ (by simpa using unused)] at before
          cases before
        · have same : key = dj.fn := by
            have both := isKey.symm.trans named
            exact Option.some.inj both
          have present := (held.represents key _).mpr ⟨i, below, holder, rfl⟩
          rw [same, absent] at present
          cases present
      · have inserted := represents_put dirReading middle.fs.nRootdir middle.slot final.slot j
          within others names.entries dj.fn held.represents absent (dirReading.unnamed _ blank)
          named
        rw [written] at inserted
        exact inserted
      · show _ = names.free - 1
        omega

/-- The entry of a name is removed. Its first byte marks it as deleted. -/
theorem dir_remove_root (dj : DIR) (own : dj.sclust = 0) (fn : List u8)
    (inside : dj.index < volume.fs.nRootdir)
    (named : entryName (volume.slot dj.index) = some fn) :
    ∃ final after, dirRemove volume dj = .ok (.ok, final, after) ∧ SameBeside volume after ∧
      DirectoryHolds after (names.erase fn) := by
  obtain ⟨after, put, mounted, beside, slot, others, _⟩ := put_entry_root volume holds.mounted
    holds.root dj dj.index inside [dde] (by decide)
  obtain ⟨unnamed, blank, used⟩ := deleted_unnamed ((volume.slot dj.index).drop [dde].length)
  rw [← slot] at unnamed blank used
  have before : dirReading.blank (volume.slot dj.index) = false := by
    by_contra empty
    rw [show entryName _ = none from dirReading.unnamed _ (by simpa using empty)] at named
    cases named
  have backwards := fun i below apart => (others i below apart).symm
  have more := blanks_taken dirReading volume.fs.nRootdir after.slot volume.slot dj.index inside
    backwards blank before
  rw [holds.counted] at more
  refine ⟨dj.atRoot volume.fs dj.index, after, ?_, beside, ?_⟩
  · rw [dirRemove, dir_sdi_root volume holds.mounted holds.root dj dj.index own inside, ok_bind]
    dsimp only
    rw [if_pos rfl, put]
  · refine holds_changed volume names holds after mounted beside _ ?_ ?_ more
    · refine orderly_changed dirReading volume.fs.nRootdir volume.slot after.slot dj.index others
        holds.orderly (fun i early => ?_) used (fun key isKey => ?_)
      · by_contra unused
        have later := holds.orderly.behind i dj.index early inside (by simpa using unused)
        rw [dirReading.fresh _ later] at before
        cases before
      · rw [show dirReading.name _ = none from unnamed] at isKey
        cases isKey
    · exact represents_removed dirReading volume.fs.nRootdir volume.slot after.slot dj.index inside
        others names.entries fn holds.orderly holds.represents named unnamed

/-- A request is answered as the map answers it. Proof: the search decides, and behind it an entry
is put or not. -/
theorem answer_root (request : DirRequest) (valid : ValidName request.name) :
    ∃ after, volume.answer request = .ok ((names.answer request).1, after) ∧
      SameBeside volume after ∧ DirectoryHolds after (names.answer request).2 := by
  obtain ⟨res, final, middle, ran, same, own, named, found⟩ :=
    dir_find_root volume names holds request.name valid
  have held := holds_seen volume names holds middle same
  have entered := seen_beside volume holds.mounted middle same
  have count : middle.fs.nRootdir = volume.fs.nRootdir := by rw [same.system]
  cases request with
  | find fn =>
    rw [DirRequest.name] at ran found
    rw [Volume.answer, ran, ok_bind]
    rcases found with ⟨j, _, present, _, rfl, _, shown⟩ | ⟨absent, rfl⟩
    · rw [EntryMap.answer, present, ← shown]
      exact ⟨middle, rfl, entered, held⟩
    · rw [EntryMap.answer, absent]
      exact ⟨middle, rfl, entered, held⟩
  | create fn =>
    rw [DirRequest.name] at ran found named
    rw [Volume.answer, ran, ok_bind]
    rcases found with ⟨j, _, present, _, rfl, _, shown⟩ | ⟨absent, rfl⟩
    · rw [EntryMap.answer, present, ← shown]
      exact ⟨middle, rfl, entered, held⟩
    · obtain ⟨res, last, after, registered, beside, outcome⟩ :=
        dir_register_root middle names held final
        own (by rw [named]; exact valid) (by rw [named]; exact absent)
      have whole := same_beside_trans _ _ _ entered beside
      rw [EntryMap.answer, absent]
      dsimp only
      rw [createMissing, if_pos rfl, registered, ok_bind]
      rcases outcome with ⟨full, rfl, kept⟩ | ⟨room, rfl, entry, kept⟩
      · rw [if_pos full]
        exact ⟨after, rfl, whole, kept⟩
      · rw [named] at entry kept
        rw [if_neg room, ← entry]
        exact ⟨after, rfl, whole, kept⟩
  | remove fn =>
    rw [DirRequest.name] at ran found
    rw [Volume.answer, ran, ok_bind]
    rcases found with ⟨j, inside, present, holder, rfl, rfl, _⟩ | ⟨absent, rfl⟩
    · have slot := seen_slot volume holds.mounted holds.root middle same final.index
      obtain ⟨last, after, removed, beside, kept⟩ := dir_remove_root middle names held final own fn
        (by rw [count]; exact inside) (by rw [slot]; exact holder)
      rw [EntryMap.answer, present]
      dsimp only
      rw [removeFound, if_pos rfl, removed, ok_bind]
      exact ⟨after, rfl, same_beside_trans _ _ _ entered beside, kept⟩
    · rw [EntryMap.answer, absent]
      exact ⟨middle, rfl, entered, held⟩

end Requests

/-- In any run of searches, creations and removals the root directory answers as a map from names
to entries: an entry once made is found as it is until its own name is removed, a creation fails
only when no entry is blank, and nothing but the table itself is changed on the volume. Proof: a
scan stops at the first entry that ends it, which decides one request; the run follows by
induction. -/
theorem directory_keeps_entries (volume : Volume) (names : EntryMap)
    (holds : DirectoryHolds volume names) (requests : List DirRequest)
    (valid : ∀ request ∈ requests, ValidName request.name) :
    ∃ after, volume.answerAll requests = .ok ((names.answerAll requests).1, after) ∧
      SameBeside volume after ∧ DirectoryHolds after (names.answerAll requests).2 := by
  induction requests generalizing volume names with
  | nil => exact ⟨volume, rfl, ⟨rfl, fun _ _ => rfl, fun _ _ _ => rfl⟩, holds⟩
  | cons request rest inductionHypothesis =>
    obtain ⟨middle, first, entered, held⟩ :=
      answer_root volume names holds request (valid request List.mem_cons_self)
    obtain ⟨after, ran, left, kept⟩ := inductionHypothesis middle _ held
      fun other member => valid other (List.mem_cons_of_mem _ member)
    refine ⟨after, ?_, same_beside_trans _ _ _ entered left, kept⟩
    rw [Volume.answerAll, first, ok_bind]
    dsimp only
    rw [ran, ok_bind]
    rfl

/-- The entries of the small volume are clear. They were never used. -/
theorem small_volume_slot (win : List u8) (i : Nat) (inside : i < 16) :
    (smallVolume win).slot i = List.replicate 32 0 := by
  have per : dirsPerSector = 16 := rfl
  have place : (smallVolume win).fs.dirbase + i / dirsPerSector = 3 := by
    rw [per]
    show 3 + i / 16 = 3
    omega
  have apart : (smallVolume win).cache.held ≠ some 3 := by
    show (some 1 : Option Nat) ≠ some 3
    decide
  have clear : (smallVolume win).cache.view 3 = List.replicate 512 0 := by
    have count : min sectorSize (diskSize - sectorSize * 3) = 512 := by decide
    rw [Cache.view, if_neg apart]
    simp only [Volume.cache, smallVolume]
    rw [sector, List.drop_replicate, List.take_replicate, count]
  have size : szDir = 32 := rfl
  have count : min 32 (512 - i % 16 * 32) = 32 := by omega
  rw [Volume.slot, place, clear, List.drop_replicate, List.take_replicate, per, size, count]

/-- The root directory of the small volume is an empty map of sixteen entries. So the runs of
requests have a directory to start from. -/
theorem small_volume_directory (win : List u8) (filled : win.length = sectorSize) :
    DirectoryHolds (smallVolume win) ⟨fun _ => none, 16⟩ := by
  have unnamed : ∀ i < 16, entryName ((smallVolume win).slot i) = none := by
    intro i inside
    rw [small_volume_slot win i inside]
    rfl
  have unused : ∀ i < 16, dirReading.unused ((smallVolume win).slot i) = true := by
    intro i inside
    rw [small_volume_slot win i inside]
    rfl
  refine ⟨small_volume_mounted win filled, ⟨by show FsType.fat12 ≠ .fat32; decide,
    by show 0 < 16; decide, by show 16 % 16 = 0; decide, by show 16 < 2 ^ 16; decide,
    by show 1 + 2 * 1 ≤ 3; decide, by show 3 + 16 / 16 ≤ sectorCount; decide⟩, ⟨?_, ?_⟩, ?_, ?_⟩
  · exact fun i j _ late _ => unused j late
  · intro i j key first _ named _
    rw [show dirReading.name _ = none from unnamed i first] at named
    cases named
  · intro key slot
    constructor
    · intro found
      cases found
    · rintro ⟨i, inside, named, _⟩
      rw [show dirReading.name _ = none from unnamed i inside] at named
      cases named
  · have all : ((Finset.range 16).filter fun i =>
        dirReading.blank ((smallVolume win).slot i) = true) = Finset.range 16 :=
      Finset.filter_true_of_mem fun i member =>
        dirReading.fresh _ (unused i (Finset.mem_range.mp member))
    show ((Finset.range 16).filter fun i =>
      dirReading.blank ((smallVolume win).slot i) = true).card = 16
    rw [all, Finset.card_range]

/-- Names in the form of an entry: a letter each, and blanks. No two of them are the same. -/
def letterName (n : Nat) : List u8 := UInt8.ofNat (65 + n) :: List.replicate 10 32

/-- The names of letters are valid. They begin with a letter, and the rest is blanks. -/
theorem letter_name_valid (n : Nat) (few : n < 17) : ValidName (letterName n) := by
  refine ⟨by rw [letterName, List.length_cons, List.length_replicate], ?_, ?_⟩
  · interval_cases n <;> decide
  · interval_cases n <;> decide

/-- The sixteen entries of the small volume are taken. Another name is refused until one of them is
removed. -/
def fillRequests : List DirRequest :=
  (List.range 16).map (fun n => .create (letterName n)) ++
    [.create (letterName 16), .find (letterName 3), .remove (letterName 3),
      .create (letterName 16), .find (letterName 16), .find (letterName 3)]

/-- The last name takes the entry that was deleted, and is found. The seventeenth name in between
is refused. -/
theorem small_directory_keeps :
    ∃ after, (smallVolume (fatStart [])).answerAll fillRequests =
        .ok ((List.range 16).map (fun n => (.ok, some (newEntry (letterName n)))) ++
          [(.noFile, none), (.ok, some (newEntry (letterName 3))), (.ok, none),
            (.ok, some (newEntry (letterName 16))), (.ok, some (newEntry (letterName 16))),
            (.noFile, none)], after) ∧
      SameBeside (smallVolume (fatStart [])) after := by
  have valid : ∀ request ∈ fillRequests, ValidName request.name := by
    simp only [fillRequests, List.forall_mem_append, List.forall_mem_map, List.forall_mem_cons]
    have later (n : Nat) (few : n < 17) := letter_name_valid n few
    refine ⟨fun n member => later n ((List.mem_range.mp member).trans (by decide)),
      later 16 (by decide), later 3 (by decide), later 3 (by decide), later 16 (by decide),
      later 16 (by decide), later 3 (by decide), fun _ left => absurd left List.not_mem_nil⟩
  obtain ⟨after, ran, beside, _⟩ := directory_keeps_entries (smallVolume (fatStart []))
    ⟨fun _ => none, 16⟩ (small_volume_directory _ (fat_start_length [] (by decide))) fillRequests
    valid
  refine ⟨after, ran.trans ?_, beside⟩
  have answers : ((⟨fun _ => none, 16⟩ : EntryMap).answerAll fillRequests).1 =
      (List.range 16).map (fun n => (.ok, some (newEntry (letterName n)))) ++
        [(.noFile, none), (.ok, some (newEntry (letterName 3))), (.ok, none),
          (.ok, some (newEntry (letterName 16))), (.ok, some (newEntry (letterName 16))),
          (.noFile, none)] := by
    decide +kernel
  rw [answers]

end EffiLib.FatFs
