import EffiLib.FatFs.Directories

/-!
# Scanning the root directory

The root directory of a FAT12 or FAT16 volume is a static table of whole sectors. A directory
object steps through its entries one by one, and a loop over it comes to the first entry that
ends it or to the end of the table. Everything is seen as before on the way.
-/

namespace EffiLib.FatFs

open Buffers Sectors BlockCache LittleEndian

/-- The root directory is a static table of whole sectors, behind the FATs. The number of entries
is a word, so the index does not wrap. -/
structure RootPlaced (fs : FATFS) : Prop where
  static : fs.fsType ≠ .fat32
  present : 0 < fs.nRootdir
  aligned : fs.nRootdir % 16 = 0
  word : fs.nRootdir < 2 ^ 16
  behind : fs.fatbase + fs.nFats * fs.fsize ≤ fs.dirbase
  inside : fs.dirbase + fs.nRootdir / 16 ≤ sectorCount

/-- An entry of the root directory as it is seen through the window. It may not have reached the
disk yet. -/
def Volume.slot (volume : Volume) (i : Nat) : List u8 :=
  ((volume.cache.view (volume.fs.dirbase + i / dirsPerSector)).drop
    (i % dirsPerSector * szDir)).take szDir

/-- A directory object at an entry of the root directory. There is no cluster. -/
def DIR.atRoot (dj : DIR) (fs : FATFS) (i : Nat) : DIR :=
  { dj with
    index := i
    clust := 0
    sect := fs.dirbase + i / dirsPerSector
    dir := i % dirsPerSector * szDir }

/-- A volume with the same FAT and the same sectors beside the root directory. So no file is
touched. -/
structure SameBeside (volume after : Volume) : Prop where
  system : SameSystem volume.fs after.fs
  linked : ∀ clst < volume.fs.nFatent, after.link clst = volume.link clst
  others : ∀ number, OutsideFat volume.fs number →
    (number < volume.fs.dirbase ∨ volume.fs.dirbase + volume.fs.nRootdir / 16 ≤ number) →
    after.cache.view number = volume.cache.view number

/-- Steps beside the root directory add up. What is beside it is then as it was at first. -/
theorem same_beside_trans (volume middle after : Volume) (first : SameBeside volume middle)
    (second : SameBeside middle after) : SameBeside volume after := by
  have fields := first.system
  refine ⟨same_system_trans _ _ _ first.system second.system, fun clst below => ?_,
    fun number outside beside => ?_⟩
  · rw [second.linked clst (by rw [fields]; exact below), first.linked clst below]
  · rw [second.others number (by rw [OutsideFat, fields]; exact outside)
      (by rw [fields]; exact beside), first.others number outside beside]

/-- The table is in the same place on a volume of the same system. Its place is computed from
fields that stay. -/
theorem root_placed_same (fs after : FATFS) (root : RootPlaced fs) (same : SameSystem fs after) :
    RootPlaced after := by
  rw [same]
  exact ⟨root.static, root.present, root.aligned, root.word, root.behind, root.inside⟩

section Root

variable (volume : Volume) (mounted : Mounted volume) (root : RootPlaced volume.fs)

include mounted root in
/-- The window is moved to the sector of an entry, and everything is seen as before. It is inside
the disk and is no copy of another. -/
theorem move_window_root (i : Nat) (inside : i < volume.fs.nRootdir) :
    ∃ moved, moveWindow volume (volume.fs.dirbase + i / dirsPerSector) = (.ok, moved) ∧
      SeenSame volume moved ∧ moved.fs.winsect = volume.fs.dirbase + i / dirsPerSector ∧
      moved.fs.win = volume.cache.view (volume.fs.dirbase + i / dirsPerSector) := by
  have sound := mounted.sound
  have reserved := sound.placed.reserved
  have behind := root.behind
  have room := root.inside
  have aligned := root.aligned
  have per : dirsPerSector = 16 := rfl
  have before : i / dirsPerSector < volume.fs.nRootdir / 16 := by
    rw [per]
    omega
  generalize i / dirsPerSector = number at before ⊢
  obtain ⟨moved, done, same, shown, window, _⟩ := move_window_shows volume sound
    (volume.fs.dirbase + number) (by omega) (by omega)
  have primary := primary_outside volume.fs (volume.fs.dirbase + number) (Or.inr (by omega))
  exact ⟨moved, done, same, shown, window primary⟩

include mounted root in
/-- What is seen as before is so in the root directory. Its entries are parts of sectors that are
seen. -/
theorem seen_slot (after : Volume) (same : SeenSame volume after) (i : Nat) :
    after.slot i = volume.slot i := by
  have place : after.fs.dirbase = volume.fs.dirbase := by rw [same.system]
  have behind := root.behind
  have positive := mounted.sound.placed.reserved
  rw [Volume.slot, Volume.slot, place]
  generalize i / dirsPerSector = number
  rw [same.seen _ (primary_outside volume.fs _ (Or.inr (by omega)))]

include mounted in
/-- What is seen as before is the same beside the root directory. It is used for steps that only
read. -/
theorem seen_beside (after : Volume) (same : SeenSame volume after) : SameBeside volume after :=
  ⟨same.system, fun clst below => seen_link volume after mounted same clst below,
    fun number outside _ => same.seen number (outside_primary volume.fs number outside)⟩

include mounted root in
/-- `dir_sdi` goes to an entry. The volume is not touched. -/
theorem dir_sdi_root (dj : DIR) (idx : Nat) (own : dj.sclust = 0)
    (inside : idx < volume.fs.nRootdir) :
    dirSdi volume dj idx = .ok (.ok, dj.atRoot volume.fs idx, volume) := by
  have present := mounted.present
  have room := root.inside
  have aligned := root.aligned
  have per : dirsPerSector = 16 := rfl
  have sectors : sectorCount = 10240 := rfl
  have sum : dwordSum volume.fs.dirbase (idx / dirsPerSector) =
      volume.fs.dirbase + idx / dirsPerSector :=
    dword_sum_small _ _ (by rw [per]; omega)
  have plain : (if (0 : Nat) = 0 ∧ volume.fs.fsType = .fat32 then volume.fs.dirbase else 0) = 0 :=
    if_neg fun both => root.static both.2
  rw [dirSdi]
  dsimp only
  rw [own, if_neg (by omega), plain, if_pos rfl, sdiStatic]
  dsimp only
  rw [if_neg (by omega), sum, DIR.atRoot, own]

include root in
/-- `dir_next` goes to the entry behind. The sector changes every sixteen entries. -/
theorem dir_next_root (dj : DIR) (i : Nat) (stretch : Bool)
    (inside : i + 1 < volume.fs.nRootdir) (behind : 0 < volume.fs.dirbase) :
    dirNext volume (dj.atRoot volume.fs i) stretch =
      .ok (.ok, dj.atRoot volume.fs (i + 1), volume) := by
  have room := root.inside
  have word := root.word
  have per : dirsPerSector = 16 := rfl
  have sectors : sectorCount = 10240 := rfl
  have small : (i + 1) % 2 ^ 16 = i + 1 := Nat.mod_eq_of_lt (by omega)
  rw [dirNext, DIR.atRoot]
  dsimp only
  rw [small, per, if_neg (by omega)]
  by_cases first : (i + 1) % 16 = 0
  · have sum : dwordSum (volume.fs.dirbase + i / 16) 1 = volume.fs.dirbase + (i + 1) / 16 := by
      rw [dword_sum_small _ _ (by omega)]
      omega
    rw [if_pos first, if_pos rfl, if_neg (by omega), sum]
    rfl
  · have same : i / 16 = (i + 1) / 16 := by omega
    rw [if_neg first, same]
    rfl

include root in
/-- Behind the last entry it answers that there is no file. A root directory of fixed size is not
made longer. -/
theorem dir_next_end (dj : DIR) (i : Nat) (stretch : Bool) (last : i + 1 = volume.fs.nRootdir) :
    ∃ final : DIR, dirNext volume (dj.atRoot volume.fs i) stretch = .ok (.noFile, final, volume) ∧
      final.sclust = dj.sclust ∧ final.fn = dj.fn := by
  have word := root.word
  have aligned := root.aligned
  have per : dirsPerSector = 16 := rfl
  have small : (i + 1) % 2 ^ 16 = i + 1 := Nat.mod_eq_of_lt (by omega)
  rw [dirNext, DIR.atRoot]
  dsimp only
  rw [small, per]
  by_cases stopped : i + 1 = 0 ∨ volume.fs.dirbase + i / 16 = 0
  · exact ⟨_, if_pos stopped, rfl, rfl⟩
  · rw [if_neg stopped, if_pos (by omega), if_pos rfl, if_pos (by omega)]
    exact ⟨_, rfl, rfl, rfl⟩

end Root

/-- A scan goes to the first entry that ends it, or to the end of the table. At the end of the
table no file is the answer. -/
inductive Scanned (ends : List u8 → Option FResult) (volume : Volume) (dj : DIR) (i : Nat) :
    FResult → DIR → Volume → Prop where
  | found (j : Nat) (res : FResult) (after : Volume) (late : i ≤ j)
      (inside : j < volume.fs.nRootdir)
      (passed : ∀ k, i ≤ k → k < j → ends (volume.slot k) = none)
      (ended : ends (volume.slot j) = some res)
      (shown : (dj.atRoot volume.fs j).entry after.fs.win = volume.slot j) :
      Scanned ends volume dj i res (dj.atRoot volume.fs j) after
  | exhausted (final : DIR) (after : Volume)
      (passed : ∀ k, i ≤ k → k < volume.fs.nRootdir → ends (volume.slot k) = none)
      (own : final.sclust = dj.sclust) (named : final.fn = dj.fn) :
      Scanned ends volume dj i .noFile final after

/-- The loop scans the root directory from any entry on. Proof: by induction on the fuel; each
entry is looked at through the window. -/
theorem scan_table_scans (ends : List u8 → Option FResult) (stretch : Bool) (fuel : Nat)
    (volume : Volume) (mounted : Mounted volume) (root : RootPlaced volume.fs) (dj : DIR) (i : Nat)
    (inside : i < volume.fs.nRootdir) (enough : volume.fs.nRootdir ≤ i + fuel) :
    ∃ res final after, scanTable ends stretch fuel volume (dj.atRoot volume.fs i) =
        .ok (res, final, after) ∧ SeenSame volume after ∧
      Scanned ends volume dj i res final after := by
  induction fuel generalizing volume i with
  | zero => omega
  | succ fuel inductionHypothesis =>
    obtain ⟨moved, done, same, shown, window⟩ := move_window_root volume mounted root i inside
    have entry : (dj.atRoot volume.fs i).entry moved.fs.win = volume.slot i := by
      rw [DIR.entry, window]
      rfl
    have sector : (dj.atRoot volume.fs i).sect = volume.fs.dirbase + i / dirsPerSector := rfl
    have system := same.system
    rw [scanTable, sector, done]
    dsimp only
    rw [entry]
    cases ended : ends (volume.slot i) with
    | some res =>
      exact ⟨res, _, moved, rfl, same, .found i res moved (Nat.le_refl _) inside
        (fun k late early => by omega) ended entry⟩
    | none =>
      have movedRoot := root_placed_same _ _ root system
      have place : dj.atRoot volume.fs i = dj.atRoot moved.fs i := by
        rw [DIR.atRoot, DIR.atRoot, system]
      have count : moved.fs.nRootdir = volume.fs.nRootdir := by rw [system]
      have base : moved.fs.dirbase = volume.fs.dirbase := by rw [system]
      have behind := root.behind
      have reserved := mounted.sound.placed.reserved
      dsimp only
      rw [place]
      by_cases last : i + 1 = volume.fs.nRootdir
      · obtain ⟨final, next, own, named⟩ := dir_next_end moved movedRoot dj i stretch
          (by rw [count]; exact last)
        rw [next, ok_bind]
        dsimp only
        rw [if_neg (by decide)]
        refine ⟨.noFile, final, moved, rfl, same, .exhausted final moved ?_ own named⟩
        intro k late early
        rw [show k = i by omega]
        exact ended
      · have next := dir_next_root moved movedRoot dj i stretch (by omega) (by omega)
        rw [next, ok_bind]
        dsimp only
        rw [if_pos rfl]
        obtain ⟨res, final, after, ran, seen, scanned⟩ := inductionHypothesis moved
          (seen_mounted volume moved mounted same) movedRoot (i + 1) (by omega) (by omega)
        refine ⟨res, final, after, ran, seen_same_trans _ _ _ same seen, ?_⟩
        cases scanned with
        | found j res after late early passed found shown =>
          have there : dj.atRoot moved.fs j = dj.atRoot volume.fs j := by
            rw [DIR.atRoot, DIR.atRoot, system]
          rw [there]
          rw [there] at shown
          rw [seen_slot volume mounted root moved same] at found shown
          refine .found j res after (by omega) (by omega) (fun k first before => ?_) found shown
          by_cases here : k = i
          · rw [here]
            exact ended
          · rw [← seen_slot volume mounted root moved same]
            exact passed k (by omega) before
        | exhausted final after passed own named =>
          refine .exhausted final after (fun k first before => ?_) own named
          by_cases here : k = i
          · rw [here]
            exact ended
          · rw [← seen_slot volume mounted root moved same]
            exact passed k (by omega) (by omega)

/-- From the start the whole table is scanned. `dir_sdi` goes to the first entry. -/
theorem scan_from_start_scans (ends : List u8 → Option FResult) (stretch : Bool)
    (volume : Volume) (mounted : Mounted volume) (root : RootPlaced volume.fs) (dj : DIR)
    (own : dj.sclust = 0) :
    ∃ res final after, scanFromStart ends stretch volume dj = .ok (res, final, after) ∧
      SeenSame volume after ∧ Scanned ends volume dj 0 res final after := by
  have word := root.word
  rw [scanFromStart, dir_sdi_root volume mounted root dj 0 own root.present, ok_bind]
  dsimp only
  rw [if_pos rfl]
  exact scan_table_scans ends stretch maxEntries volume mounted root dj 0 root.present
    (by rw [maxEntries]; omega)

end EffiLib.FatFs
