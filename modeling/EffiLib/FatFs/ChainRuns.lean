import EffiLib.FatFs.Clusters

/-!
# Chains over whole runs

Giving back the clusters of a chain, or those behind one of them, leaves the other chains as
they are and counts what became free; counting the free clusters anew finds the same number.
Through any run of these and of stretching, the chains of the files share no cluster, and
every cluster outside the files is free or was lost before the run.
-/

namespace EffiLib.FatFs

open Buffers ChainTable LittleEndian

/-! ## Removing and cutting chains -/

/-- The counter does not show in the FAT. It is a field of the file system object, which the
window does not use. -/
theorem count_freed_mounted (volume : Volume) (mounted : Mounted volume) :
    Mounted volume.countFreed ∧ (∀ clst, volume.countFreed.link clst = volume.link clst) ∧
      Kept volume volume.countFreed := by
  rw [Volume.countFreed]
  split
  · exact ⟨counters_mounted volume mounted volume.fs.lastClust _ true, fun _ => rfl, rfl,
      fun _ _ away => away, fun _ _ => rfl⟩
  · exact ⟨mounted, fun _ => rfl, kept_refl volume⟩

/-- A cluster was cleared, and the counter follows. An unknown number stays unknown. -/
theorem count_freed_counted (volume after : Volume) (clst : Nat) (mounted : Mounted volume)
    (counted : Counted volume) (inRange : InRange volume.fs clst) (used : volume.link clst ≠ 0)
    (relinked : Relinked volume (Function.update volume.link clst 0) after) :
    Counted after.countFreed := by
  have count : after.fs.nFatent = volume.fs.nFatent := by rw [relinked.system]
  have counter : after.fs.freeClust = volume.fs.freeClust := by rw [relinked.system]
  rcases counted with isUnknown | isCount
  · have stays : after.countFreed = after := by
      rw [Volume.countFreed, if_neg (by rw [counter, isUnknown]; simp)]
    rw [stays]
    exact Or.inl (counter.trans isUnknown)
  · have few := free_cells_bounded volume.link 2 volume.fs.nFatent
    have limited := mounted.limited
    have range := entry_range_small volume.fs.fsType
    have known : after.fs.freeClust ≠ unknown := by
      rw [counter, isCount, unknown]
      omega
    have counts : after.countFreed = { after with
        fs := { after.fs with
          freeClust := dwordSum after.fs.freeClust 1, fsiFlag := true } } := by
      rw [Volume.countFreed, if_pos known]
    have cells := free_cells_congr (Function.update volume.link clst 0) after.link 2
      volume.fs.nFatent (fun other _ below => relinked.linked other below)
    have more := free_cells_given volume.link 2 volume.fs.nFatent clst inRange.1 inRange.2 used
    refine Or.inr ?_
    rw [counts]
    show dwordSum after.fs.freeClust 1 = (freeCells after.link 2 after.fs.nFatent).card
    rw [dword_sum_small _ _ (by omega), count, cells, more, counter, isCount]

/-- A step of the loop clears a cluster and goes to the one it was linked to. The link was read
before it was cleared. -/
theorem remove_loop_step (volume : Volume) (mounted : Mounted volume) (clst fuel : Nat)
    (inRange : InRange volume.fs clst) (proper : 2 ≤ volume.link clst) :
    ∃ cleared, Relinked volume (Function.update volume.link clst 0) cleared ∧
      removeLoop (fuel + 1) volume clst =
        removeLoop fuel cleared.countFreed (volume.link clst) := by
  obtain ⟨looked, read, same⟩ := get_fat_reads volume mounted clst inRange
  have count : looked.fs.nFatent = volume.fs.nFatent := by rw [same.system]
  obtain ⟨cleared, put, linked⟩ := put_fat_links looked same.mounted clst 0
    ⟨inRange.1, count ▸ inRange.2⟩
  have small := (link_lt volume mounted clst).trans_le (entry_range_small _)
  refine ⟨cleared, relinked_congr _ _ _ _ (relinked_trans _ _ _ _ _ same linked)
    (fun other below => ?_), ?_⟩
  · rw [Function.update_apply, Function.update_apply, same.linked other below, Nat.zero_mod]
  · rw [removeLoop, if_pos inRange.2, read]
    dsimp only
    rw [if_neg (by omega), if_neg (by omega), if_neg (by omega), put]

/-- The loop clears the clusters of a chain. Proof: by induction on the chain; clearing one
cluster leaves the links of the others. -/
theorem remove_loop_clears (cells : List Nat) (volume : Volume) (first last fuel : Nat)
    (mounted : Mounted volume) (counted : Counted volume)
    (path : Path volume.link first cells last) (ends : volume.fs.nFatent ≤ last)
    (inside : ∀ clst ∈ cells, InRange volume.fs clst ∧ 2 ≤ volume.link clst)
    (distinct : cells.Nodup) (enough : cells.length < fuel) :
    ∃ after, removeLoop fuel volume first = .ok (.ok, after) ∧ Mounted after ∧
      Kept volume after ∧ Counted after ∧
      ∀ clst < volume.fs.nFatent, after.link clst = clear volume.link cells clst := by
  induction cells generalizing volume first fuel with
  | nil =>
    have reached : first = last := path
    refine ⟨volume, ?_, mounted, kept_refl volume, counted, fun clst _ => ?_⟩
    · cases fuel with
      | zero => exact absurd enough (Nat.not_lt_zero _)
      | succ fuel => rw [removeLoop, if_neg (by omega)]
    · rw [clear, if_neg List.not_mem_nil]
  | cons clst rest inductionHypothesis =>
    obtain ⟨rfl, tail⟩ := path
    obtain ⟨inRange, proper⟩ := inside first List.mem_cons_self
    obtain ⟨fresh, restDistinct⟩ := List.nodup_cons.mp distinct
    cases fuel with
    | zero => exact absurd enough (Nat.not_lt_zero _)
    | succ fuel =>
      obtain ⟨cleared, linked, step⟩ := remove_loop_step volume mounted first fuel inRange proper
      obtain ⟨countedMounted, sameLinks, countedKept⟩ := count_freed_mounted cleared linked.mounted
      have kept := kept_trans _ _ _ (relinked_kept _ _ _ linked) countedKept
      have count : cleared.countFreed.fs.nFatent = volume.fs.nFatent := by rw [kept.layout]
      have others : ∀ other ∈ rest, cleared.countFreed.link other = volume.link other := by
        intro other member
        have apart : other ≠ first := fun same => fresh (same ▸ member)
        rw [sameLinks, linked.linked other (inside other (List.mem_cons_of_mem _ member)).1.2,
          Function.update_of_ne apart]
      obtain ⟨after, ran, afterMounted, afterKept, afterCounted, afterLinks⟩ :=
        inductionHypothesis cleared.countFreed (volume.link first) fuel countedMounted
          (count_freed_counted volume cleared first mounted counted inRange (by omega) linked)
          (path_frame _ _ _ _ _ others tail) (by rw [count]; exact ends)
          (fun other member => by
            rw [others other member, InRange, count]
            exact inside other (List.mem_cons_of_mem _ member))
          restDistinct (by rw [List.length_cons] at enough; omega)
      refine ⟨after, step.trans ran, afterMounted, kept_trans _ _ _ kept afterKept, afterCounted,
        fun other below => ?_⟩
      rw [afterLinks other (by rw [count]; exact below), ← clear_cons, clear, clear, sameLinks,
        linked.linked other below]

/-- The clusters of a chain are no more than those of the volume. So a loop with one pass for each
cluster of the volume is not cut short. -/
theorem chain_short (nFatent : Nat) (cells : List Nat) (distinct : cells.Nodup)
    (inside : ∀ clst ∈ cells, clst < nFatent) : cells.length ≤ nFatent := by
  have subset : cells ⊆ List.range nFatent :=
    fun clst member => List.mem_range.mpr (inside clst member)
  simpa using (distinct.subperm subset).length_le

/-- The links of a volume behind clearing some clusters of a chain. The other chains are as
before, and the counter has been kept up. -/
theorem consistent_cleared (volume after : Volume) (lost : List Nat)
    (files changed : List (List Nat)) (links : Nat → Nat)
    (consistent : Consistent volume lost files) (mounted : Mounted after) (kept : Kept volume after)
    (counted : Counted after) (linked : ∀ clst < volume.fs.nFatent, after.link clst = links clst)
    (holds : Holds links 2 volume.fs.nFatent lost changed)
    (marks : links 0 = volume.link 0 ∧ links 1 = volume.link 1) :
    Consistent after lost changed := by
  have present := consistent.mounted.present
  have count : after.fs.nFatent = volume.fs.nFatent := by rw [kept.layout]
  refine ⟨mounted, ?_, counted, ?_⟩
  · rw [count]
    exact holds_congr links after.link _ _ _ _ holds (fun clst _ below => linked clst below)
  · rw [linked 0 (by omega), linked 1 (by omega), marks.1, marks.2]
    exact consistent.marks

/-- The clusters of a file are given back. The other files and the lost clusters are as before. -/
theorem remove_chain_releases (volume : Volume) (lost : List Nat) (front back : List (List Nat))
    (first : Nat) (rest : List Nat)
    (consistent : Consistent volume lost (front ++ (first :: rest) :: back)) :
    ∃ after, removeChain volume first = .ok (.ok, after) ∧ Kept volume after ∧
      Consistent after lost (front ++ [] :: back) := by
  obtain ⟨distinct, cells, last, ends, path⟩ := holds_chain _ _ _ _ _ _ _ consistent.holds
  have inside : ∀ clst ∈ first :: rest, InRange volume.fs clst ∧ 2 ≤ volume.link clst :=
    fun clst member => ⟨⟨(cells clst member).1, (cells clst member).2.1⟩, (cells clst member).2.2.2⟩
  have short := chain_short volume.fs.nFatent _ distinct
    (fun clst member => (inside clst member).1.2)
  obtain ⟨after, ran, mounted, kept, counted, linked⟩ := remove_loop_clears (first :: rest) volume
    first last (volume.fs.nFatent + 1) consistent.mounted consistent.counted path ends inside
    distinct (by omega)
  refine ⟨after, ?_, kept, consistent_cleared _ _ _ _ _ _ consistent mounted kept counted linked
    (holds_release _ _ _ _ _ _ _ consistent.holds) ?_⟩
  · rw [removeChain, if_neg (in_range volume first (inside first List.mem_cons_self).1)]
    exact ran
  · have apart : ∀ clst < 2, clst ∉ first :: rest := by
      intro clst early member
      have above := (inside clst member).1.1
      omega
    exact ⟨if_neg (apart 0 (by omega)), if_neg (apart 1 (by omega))⟩

/-- The clusters behind one of a file are given back, and it becomes the last. Its new mark is put
before the rest is given back. -/
theorem truncate_chain_cuts (volume : Volume) (lost : List Nat) (front back : List (List Nat))
    (start rest : List Nat) (clst : Nat)
    (consistent : Consistent volume lost (front ++ (start ++ clst :: rest) :: back)) :
    ∃ after, truncateChain volume clst = .ok (.ok, after) ∧ Kept volume after ∧
      Consistent after lost (front ++ (start ++ [clst]) :: back) := by
  obtain ⟨inRange, proper, last, ends, path⟩ := chain_cell _ _ _ _ _ _ _ consistent
  obtain ⟨looked, read, same⟩ := get_fat_reads volume consistent.mounted clst inRange
  have lookedConsistent := consistent_relinked _ _ _ _ consistent same
  have count : looked.fs.nFatent = volume.fs.nFatent := by rw [same.system]
  have small := (consistent_proper volume lost _ consistent clst).2
  have word : volume.link clst ≠ 0xFFFFFFFF := by omega
  have noError : volume.link clst ≠ 1 := by omega
  rw [truncateChain, read]
  dsimp only
  rw [if_neg word, if_neg noError]
  cases rest with
  | nil =>
    have ended : volume.link clst = last := path
    rw [if_neg (by omega)]
    exact ⟨looked, rfl, relinked_kept _ _ _ same, lookedConsistent⟩
  | cons next rest =>
    obtain ⟨distinct, cells, _, _, _⟩ := holds_chain _ _ _ _ _ _ _ consistent.holds
    have linked : volume.link clst = next := path.1
    have inside : ∀ other ∈ next :: rest, InRange volume.fs other ∧ 2 ≤ volume.link other := by
      intro other member
      have isCell := cells other (List.mem_append_right _ (List.mem_cons_of_mem _ member))
      exact ⟨⟨isCell.1, isCell.2.1⟩, isCell.2.2.2⟩
    have later := (List.nodup_append.mp distinct).2.1
    obtain ⟨fresh, restDistinct⟩ := List.nodup_cons.mp later
    have nextRange := (inside next List.mem_cons_self).1
    have nextBelow := nextRange.2
    have kind : looked.fs.fsType = volume.fs.fsType := by rw [same.system]
    have mark := end_mark_ends volume consistent.mounted
    obtain ⟨cut, put, relinked⟩ := put_fat_links looked same.mounted clst 0x0FFFFFFF
      ⟨inRange.1, count ▸ inRange.2⟩
    have whole : Relinked volume (Function.update volume.link clst
        (0x0FFFFFFF % entryRange volume.fs.fsType)) cut := by
      refine relinked_congr _ _ _ _ (relinked_trans _ _ _ _ _ same relinked) (fun other below => ?_)
      rw [Function.update_apply, Function.update_apply, same.linked other below, kind]
    have cutCount : cut.fs.nFatent = volume.fs.nFatent := by rw [whole.system]
    have counter : cut.fs.freeClust = volume.fs.freeClust := by rw [whole.system]
    have others : ∀ other ∈ next :: rest, cut.link other = volume.link other := by
      intro other member
      have apart : other ≠ clst := fun isClst => fresh (isClst ▸ member)
      rw [whole.linked other (inside other member).1.2, Function.update_of_ne apart]
    have cutCounted : Counted cut := by
      rw [Counted, counter, cutCount, free_cells_congr _ _ _ _
        (fun other _ below => whole.linked other below),
        free_cells_relinked volume.link 2 volume.fs.nFatent clst inRange.1 inRange.2 _ (by omega)
          (by omega)]
      exact consistent.counted
    have short := chain_short volume.fs.nFatent _ restDistinct
      (fun other member => (inside other member).1.2)
    obtain ⟨after, ran, mounted, kept, counted, links⟩ := remove_loop_clears (next :: rest) cut next
      last (cut.fs.nFatent + 1) whole.mounted cutCounted
      (path_frame _ _ _ _ _ others (linked ▸ path)) (by rw [cutCount]; exact ends)
      (fun other member => by
        rw [others other member, InRange, cutCount]
        exact inside other member)
      restDistinct (by rw [cutCount]; omega)
    refine ⟨after, ?_, kept_trans _ _ _ (relinked_kept _ _ _ whole) kept, ?_⟩
    · rw [linked, if_pos (by rw [count]; exact nextBelow), put]
      dsimp only
      rw [removeChain, if_neg (in_range cut next ⟨nextRange.1, cutCount ▸ nextBelow⟩)]
      exact ran
    · refine consistent_cleared _ _ _ _ _
        (clear (Function.update volume.link clst (0x0FFFFFFF % entryRange volume.fs.fsType))
          (next :: rest)) consistent mounted
        (kept_trans _ _ _ (relinked_kept _ _ _ whole) kept) counted (fun other below => ?_)
        (holds_cut _ _ _ _ _ _ start (next :: rest) clst _ consistent.holds mark) ?_
      · rw [links other (by rw [cutCount]; exact below), clear, clear, whole.linked other below]
      · have apart : ∀ other < 2, other ∉ next :: rest ∧ other ≠ clst := by
          intro other early
          have above := inRange.1
          refine ⟨fun member => ?_, by omega⟩
          have otherAbove := (inside other member).1.1
          omega
        rw [clear, clear, if_neg (apart 0 (by omega)).1, if_neg (apart 1 (by omega)).1,
          Function.update_of_ne (apart 0 (by omega)).2,
          Function.update_of_ne (apart 1 (by omega)).2]
        exact ⟨rfl, rfl⟩

/-! ## Counting the free clusters -/

/-- The scan of a FAT12 volume counts the free clusters. It begins at cluster 2. -/
theorem scan_entries_counts (start : Volume) (small : ∀ clst, start.link clst < 2 ^ 28)
    (proper : ∀ clst, InRange start.fs clst → start.link clst ≠ 1) (count : Nat)
    (volume : Volume) (clst n : Nat) (relinked : Relinked start start.link volume)
    (above : 2 ≤ clst) (reaches : clst + count = start.fs.nFatent) :
    ∃ after, scanEntries count volume clst n =
        (.ok, n + (freeCells start.link clst start.fs.nFatent).card, after) ∧
      Relinked start start.link after := by
  induction count generalizing volume clst n with
  | zero =>
    have isEmpty : freeCells start.link clst start.fs.nFatent = ∅ := by
      rw [freeCells, Finset.Ico_eq_empty (by omega), Finset.filter_empty]
    exact ⟨volume, by rw [scanEntries, isEmpty]; rfl, relinked⟩
  | succ count inductionHypothesis =>
    have below : clst < start.fs.nFatent := by omega
    obtain ⟨looked, read, same⟩ := get_fat_again start volume relinked clst ⟨above, below⟩
    have noError := proper clst ⟨above, below⟩
    have noDisk : start.link clst ≠ 0xFFFFFFFF := Nat.ne_of_lt ((small clst).trans (by decide))
    obtain ⟨after, scanned, still⟩ := inductionHypothesis looked (clst + 1)
      (if start.link clst = 0 then n + 1 else n) same (by omega) (by omega)
    refine ⟨after, ?_, still⟩
    rw [scanEntries, read]
    dsimp only
    rw [if_neg noDisk, if_neg noError, scanned, free_cells_first _ _ _ below]
    split <;> simp only [Nat.add_assoc, Nat.zero_add]

/-- The place of the next entry: in the same sector, or at the start of the next. The scan counts
down in a sector and moves to the next one at its end. -/
theorem next_entry (perSector clst : Nat) (positive : 0 < perSector) :
    clst % perSector + 1 < perSector ∧ (clst + 1) / perSector = clst / perSector ∧
        (clst + 1) % perSector = clst % perSector + 1 ∨
      clst % perSector + 1 = perSector ∧ (clst + 1) / perSector = clst / perSector + 1 ∧
        (clst + 1) % perSector = 0 := by
  have parts : clst + 1 = perSector * (clst / perSector) + (clst % perSector + 1) := by
    rw [← Nat.add_assoc, Nat.div_add_mod]
  have divided := congrArg (· / perSector) parts
  have remains := congrArg (· % perSector) parts
  simp only [Nat.mul_add_div positive, Nat.mul_add_mod] at divided remains
  rcases Nat.lt_or_eq_of_le (Nat.mod_lt clst positive) with inside | last
  · exact Or.inl ⟨inside, by rw [divided, Nat.div_eq_of_lt inside, Nat.add_zero],
      by rw [remains, Nat.mod_eq_of_lt inside]⟩
  · have full : clst % perSector + 1 = perSector := last
    exact Or.inr ⟨full, by rw [divided, full, Nat.div_self positive],
      by rw [remains, full, Nat.mod_self]⟩

/-- Where the scan stands in front of an entry: at the start of a sector that is to be loaded, or
inside the one in the window. -/
def ScanPlace (start volume : Volume) (width perSector clst sect i p : Nat) : Prop :=
  clst % perSector = 0 ∧ i = 0 ∧ sect = start.fs.fatbase + clst / perSector ∨
    clst % perSector ≠ 0 ∧ i + p = sectorSize ∧ p = clst % perSector * width ∧
      sect = start.fs.fatbase + clst / perSector + 1 ∧
      volume.fs.win = start.fatSector (clst / perSector)

/-- The scan goes on behind an entry of the sector in the window. The places in the sector and the
entries left in it go on together. -/
theorem scan_place_next (start volume : Volume) (width perSector clst i p : Nat)
    (positive : 0 < perSector) (whole : perSector * width = sectorSize)
    (left : i + p = sectorSize) (placed : p = clst % perSector * width)
    (shown : volume.fs.win = start.fatSector (clst / perSector)) :
    ScanPlace start volume width perSector (clst + 1)
      (start.fs.fatbase + clst / perSector + 1) (i - width) (p + width) := by
  have next : (clst % perSector + 1) * width = p + width := by rw [Nat.succ_mul, placed]
  rcases next_entry perSector clst positive with ⟨inside, sameSector, later⟩ | ⟨last, other, first⟩
  · have room : p + width ≤ sectorSize := by
      rw [← next, ← whole]
      exact Nat.mul_le_mul_right _ (Nat.le_of_lt inside)
    exact Or.inr ⟨by omega, by omega, by rw [later, next], by rw [sameSector],
      by rw [sameSector]; exact shown⟩
  · rw [last, whole] at next
    exact Or.inl ⟨first, by omega, by rw [other, Nat.add_assoc]⟩

/-- The scan of the others counts the entries that are free, those of no cluster among them.
Proof: by induction on the entries that are left; a sector is loaded at its first entry. -/
theorem scan_sectors_counts (start : Volume) (mounted : Mounted start) (width perSector : Nat)
    (isFree : List u8 → Nat → Bool) (whole : perSector * width = sectorSize)
    (entries : ∀ clst < start.fs.nFatent, clst / perSector < start.fs.fsize ∧
      isFree (start.fatSector (clst / perSector)) (clst % perSector * width) =
        decide (start.link clst = 0))
    (count : Nat) (volume : Volume) (clst sect i p n : Nat) (same : SeenSame start volume)
    (apart : Apart start volume) (reaches : clst + count = start.fs.nFatent)
    (place : ScanPlace start volume width perSector clst sect i p) :
    ∃ after, scanSectors width isFree count volume sect i p n =
        (.ok, n + (freeCells start.link clst start.fs.nFatent).card, after) ∧
      SeenSame start after ∧ Apart start after := by
  have positive : 0 < perSector := by
    rcases Nat.eq_zero_or_pos perSector with isEmpty | nonzero
    · rw [isEmpty, Nat.zero_mul] at whole
      exact absurd whole (by decide)
    · exact nonzero
  induction count generalizing volume clst sect i p n with
  | zero =>
    have isEmpty : freeCells start.link clst start.fs.nFatent = ∅ := by
      rw [freeCells, Finset.Ico_eq_empty (by omega), Finset.filter_empty]
    exact ⟨volume, by rw [scanSectors, isEmpty]; rfl, same, apart⟩
  | succ count inductionHypothesis =>
    have below : clst < start.fs.nFatent := by omega
    obtain ⟨room, entry⟩ := entries clst below
    have sectors : sectorCount = 10240 := rfl
    obtain ⟨_, fits⟩ := placed_sums start.fs mounted.sound.placed
    have base : volume.fs.fatbase = start.fs.fatbase := by rw [same.system]
    have size : volume.fs.fsize = start.fs.fsize := by rw [same.system]
    have counting : ∀ m, (if decide (start.link clst = 0) then n + 1 else n) + m =
        n + ((if start.link clst = 0 then 1 else 0) + m) := by
      intro m
      by_cases free : start.link clst = 0 <;> simp only [free, decide_true, decide_false, if_true,
        if_false, Bool.false_eq_true, Nat.add_assoc, Nat.zero_add]
    rcases place with ⟨first, rfl, rfl⟩ | ⟨inner, left, offset, rfl, shown⟩
    · obtain ⟨moved, move, moveSame, place, win⟩ :=
        move_window_fat volume same.sound _ (size ▸ room)
      have sum : dwordSum volume.fs.fatbase (clst / perSector) =
          start.fs.fatbase + clst / perSector := by
        rw [base, dword_sum_small _ _ (by omega)]
      rw [sum] at move
      have movedSame := seen_same_trans _ _ _ same moveSame
      have shown : moved.fs.win = start.fatSector (clst / perSector) := by
        rw [win, seen_fat_sector start volume same _ room]
      rw [first, Nat.zero_mul] at entry
      have placed := scan_place_next start moved width perSector clst sectorSize 0 positive whole
        rfl (by rw [first, Nat.zero_mul]) shown
      rw [Nat.zero_add] at placed
      obtain ⟨after, scanned, still⟩ := inductionHypothesis moved (clst + 1) _ _ _
        (if isFree moved.fs.win 0 then n + 1 else n) movedSame
        (apart_shown start moved mounted.sound.placed _ room (base ▸ place)) (by omega) placed
      refine ⟨after, ?_, still⟩
      rw [scanSectors, if_pos rfl, move]
      dsimp only
      rw [dword_sum_small _ _ (by omega), scanned, free_cells_first _ _ _ below, shown, entry,
        counting]
    · have more : i ≠ 0 := by
        rintro rfl
        have full : clst % perSector * width = perSector * width := by omega
        have wide : 0 < width := by
          rcases Nat.eq_zero_or_pos width with isEmpty | nonzero
          · rw [isEmpty, Nat.mul_zero] at whole
            exact absurd whole (by decide)
          · exact nonzero
        exact absurd (Nat.eq_of_mul_eq_mul_right wide full) (Nat.ne_of_lt (Nat.mod_lt _ positive))
      have placed := scan_place_next start volume width perSector clst i p positive whole left
        offset shown
      obtain ⟨after, scanned, still⟩ := inductionHypothesis volume (clst + 1) _ _ _
        (if isFree volume.fs.win p then n + 1 else n) same apart (by omega) placed
      refine ⟨after, ?_, still⟩
      rw [scanSectors, if_neg more, scanned, free_cells_first _ _ _ below, shown, offset, entry,
        counting]

/-- What `f_getfree` counts on a FAT16 or FAT32 volume. The first two entries are marks and are
not free. -/
theorem counted_sectors (volume : Volume) (mounted : Mounted volume) (width perSector : Nat)
    (isFree : List u8 → Nat → Bool) (whole : perSector * width = sectorSize)
    (entries : ∀ clst < volume.fs.nFatent, clst / perSector < volume.fs.fsize ∧
      isFree (volume.fatSector (clst / perSector)) (clst % perSector * width) =
        decide (volume.link clst = 0))
    (marks : volume.link 0 ≠ 0 ∧ volume.link 1 ≠ 0) :
    ∃ after, scanSectors width isFree volume.fs.nFatent volume volume.fs.fatbase 0 0 0 =
        (.ok, (freeCells volume.link 2 volume.fs.nFatent).card, after) ∧
      Relinked volume volume.link after := by
  have present := mounted.present
  have refl : SeenSame volume volume := ⟨mounted.sound, rfl, fun _ _ => rfl⟩
  obtain ⟨after, scanned, same, apart⟩ := scan_sectors_counts volume mounted width perSector isFree
    whole entries volume.fs.nFatent volume 0 volume.fs.fatbase 0 0 0 refl (fun _ _ away => away)
    (Nat.zero_add _) (Or.inl ⟨Nat.zero_mod _, rfl, by rw [Nat.zero_div]; rfl⟩)
  refine ⟨after, ?_, seen_links volume after mounted same apart⟩
  rw [scanned, free_cells_first _ _ _ (by omega), free_cells_first _ _ _ (by omega),
    if_neg marks.1, if_neg marks.2]
  simp only [Nat.zero_add]

/-- The scan finds the number of free clusters. Each type of FAT has a scan of its own. -/
theorem scan_free_counts (volume : Volume) (lost : List Nat) (files : List (List Nat))
    (consistent : Consistent volume lost files) :
    ∃ after, scanFree volume =
        (.ok, (freeCells volume.link 2 volume.fs.nFatent).card, after) ∧
      Relinked volume volume.link after := by
  have mounted := consistent.mounted
  have present := mounted.present
  have entries := consistent_proper volume lost files consistent
  rw [scanFree]
  cases kind : volume.fs.fsType with
  | unmounted => exact absurd kind mounted.known
  | fat12 =>
    obtain ⟨after, scanned, same⟩ := scan_entries_counts volume (fun clst => (entries clst).2)
      (fun clst => (entries clst).1) (volume.fs.nFatent - 2) volume 2 0
      (relinked_refl volume mounted) (Nat.le_refl _) (by omega)
    rw [Nat.zero_add] at scanned
    exact ⟨after, scanned, same⟩
  | fat16 =>
    refine counted_sectors volume mounted 2 256 _ rfl (fun clst below => ?_) consistent.marks
    have offset : clst % 256 * 2 = clst * 2 % sectorSize := by
      rw [sectorSize]
      omega
    rw [offset, ld_word_loads, Volume.link, kind]
    exact ⟨room_fat16 volume mounted clst below kind, rfl⟩
  | fat32 =>
    refine counted_sectors volume mounted 4 128 _ rfl (fun clst below => ?_) consistent.marks
    have offset : clst % 128 * 4 = clst * 4 % sectorSize := by
      rw [sectorSize]
      omega
    have mask : ∀ word : Nat, word &&& 0x0FFFFFFF = word % 2 ^ 28 :=
      fun word => Nat.and_two_pow_sub_one_eq_mod word 28
    rw [offset, ld_dword_loads, mask, Volume.link, kind]
    exact ⟨room_fat32 volume mounted clst below kind, rfl⟩

/-- `f_getfree` finds the number of free clusters, and keeps it. If it is known already nothing is
scanned. -/
theorem f_getfree_counts (volume : Volume) (lost : List Nat) (files : List (List Nat))
    (consistent : Consistent volume lost files) :
    ∃ after, fGetfree volume =
        (.ok, (freeCells volume.link 2 volume.fs.nFatent).card, after) ∧
      Kept volume after ∧ Consistent after lost files := by
  have present := consistent.mounted.present
  have limited := consistent.mounted.limited
  have range := entry_range_small volume.fs.fsType
  have difference : dwordDiff volume.fs.nFatent 2 = volume.fs.nFatent - 2 :=
    dword_diff_small _ _ (by omega) (by omega)
  by_cases known : volume.fs.freeClust ≤ volume.fs.nFatent - 2
  · have right : volume.fs.freeClust = (freeCells volume.link 2 volume.fs.nFatent).card := by
      refine consistent.counted.resolve_left (fun isUnknown => ?_)
      rw [isUnknown, unknown] at known
      omega
    exact ⟨volume, by rw [fGetfree, difference, if_pos known, right], kept_refl volume,
      consistent⟩
  · obtain ⟨scanned, counted, same⟩ := scan_free_counts volume lost files consistent
    have kept := relinked_kept _ _ _ same
    have again := consistent_relinked _ _ _ _ consistent same
    have cells := free_cells_congr volume.link scanned.link 2 volume.fs.nFatent
      (fun clst _ below => same.linked clst below)
    have count : scanned.fs.nFatent = volume.fs.nFatent := by rw [same.system]
    generalize afterIs : ({ scanned with fs := { scanned.fs with
      lastClust := scanned.fs.lastClust
      freeClust := (freeCells volume.link 2 volume.fs.nFatent).card
      fsiFlag := if volume.fs.fsType = .fat32 then true else scanned.fs.fsiFlag } } : Volume) =
      after
    refine ⟨after, ?_, ⟨?_, fun number outside away => ?_, fun number outside => ?_⟩,
      ⟨?_, ?_, Or.inr ?_, ?_⟩⟩
    · rw [fGetfree, difference, if_neg known, counted, ← afterIs]
      dsimp only
      split <;> rfl
    · rw [← afterIs, SameLayout, kept.layout]
    · rw [← afterIs]
      exact kept.apart number outside away
    · rw [← afterIs]
      exact kept.others number outside
    · rw [← afterIs]
      exact counters_mounted scanned again.mounted _ _ _
    · rw [← afterIs]
      exact again.holds
    · rw [← afterIs]
      show (freeCells volume.link 2 volume.fs.nFatent).card =
        (freeCells scanned.link 2 scanned.fs.nFatent).card
      rw [count, cells]
    · rw [← afterIs]
      exact again.marks

/-! ## Removing a chain of a damaged FAT -/

/-- What `remove_chain` leaves when it has cleared these clusters: only their entries changed. A
counter that is known went up by one for each of them, as far as the value that stands for an
unknown one, and the FSInfo is marked to be written. -/
structure Released (volume after : Volume) (clusters : List Nat) : Prop where
  mounted : Mounted after
  kept : Kept volume after
  links : ∀ clst < volume.fs.nFatent, after.link clst = clear volume.link clusters clst
  counter : volume.fs.freeClust ≤ unknown →
    after.fs.freeClust = min (volume.fs.freeClust + clusters.length) unknown
  flagged : after.fs.fsiFlag =
    (volume.fs.fsiFlag || decide (volume.fs.freeClust ≠ unknown ∧ clusters ≠ []))
  last : after.fs.lastClust = volume.fs.lastClust

/-- The answer of the loop where it stops: an entry of one is an error, unless its cluster was
cleared on the way. A free entry and an end mark are not. -/
def stopAnswer (volume : Volume) (clusters : List Nat) (stop : Nat) : FResult :=
  if stop < volume.fs.nFatent ∧ stop ∉ clusters ∧ volume.link stop = 1 then .intErr else .ok

/-- Counting one more cluster. The counter stands still when it is not known. -/
theorem count_freed_counter (volume : Volume) (word : volume.fs.freeClust ≤ unknown) :
    volume.countFreed.fs.freeClust = min (volume.fs.freeClust + 1) unknown := by
  rw [Volume.countFreed]
  by_cases known : volume.fs.freeClust ≠ unknown
  · rw [if_pos known]
    simp only [unknown] at word known ⊢
    rw [dword_sum_small _ _ (by omega)]
    omega
  · rw [if_neg known]
    simp only [unknown] at word known ⊢
    omega

/-- Counting a cleared cluster marks the FSInfo, and leaves the cluster that was taken last.
`unknown` is neither counted up nor marked. -/
theorem count_freed_flagged (volume : Volume) :
    volume.countFreed.fs.fsiFlag =
        (volume.fs.fsiFlag || decide (volume.fs.freeClust ≠ unknown)) ∧
      volume.countFreed.fs.lastClust = volume.fs.lastClust ∧
      (volume.fs.freeClust = unknown → volume.countFreed.fs.freeClust = unknown) := by
  rw [Volume.countFreed]
  by_cases known : volume.fs.freeClust ≠ unknown
  · rw [if_pos known]
    exact ⟨by simp [known], rfl, fun isUnknown => absurd isUnknown known⟩
  · rw [if_neg known]
    exact ⟨by simp [known], rfl, fun isUnknown => isUnknown⟩

/-- A volume where nothing was cleared. It is the state before the loop of `remove_chain`. -/
theorem released_none (volume looked : Volume) (same : Relinked volume volume.link looked) :
    Released volume looked [] := by
  refine ⟨same.mounted, relinked_kept _ _ _ same, same.linked, fun word => ?_, ?_, ?_⟩
  · rw [same.system, List.length_nil, Nat.add_zero, Nat.min_eq_left word]
  · rw [same.system]
    simp
  · rw [same.system]

/-- Counting up to a top in two steps. The counter stands still at the top. -/
theorem counted_up (count more top : Nat) :
    min (min (count + 1) top + more) top = min (count + (more + 1)) top := by
  omega

/-- One cluster cleared and counted, and others behind it. This is the step of the induction over
a run of the loop. -/
theorem released_next (volume cleared after : Volume) (clst : Nat) (clusters : List Nat)
    (linked : Relinked volume (Function.update volume.link clst 0) cleared)
    (released : Released cleared.countFreed after clusters) :
    Released volume after (clst :: clusters) := by
  obtain ⟨mounted, sameLinks, countedKept⟩ := count_freed_mounted cleared linked.mounted
  obtain ⟨flag, last, stays⟩ := count_freed_flagged cleared
  have kept := kept_trans _ _ _ (relinked_kept _ _ _ linked) countedKept
  have count : cleared.countFreed.fs.nFatent = volume.fs.nFatent := by rw [kept.layout]
  have counter : cleared.fs.freeClust = volume.fs.freeClust := by rw [linked.system]
  have flagBefore : cleared.fs.fsiFlag = volume.fs.fsiFlag := by rw [linked.system]
  have lastBefore : cleared.fs.lastClust = volume.fs.lastClust := by rw [linked.system]
  refine ⟨released.mounted, kept_trans _ _ _ kept released.kept, fun other below => ?_,
    fun word => ?_, ?_, ?_⟩
  · rw [released.links other (by rw [count]; exact below), ← clear_cons, clear, clear,
      sameLinks other, linked.linked other below]
  · have counted := count_freed_counter cleared (by rw [counter]; exact word)
    rw [counter] at counted
    have stillWord : cleared.countFreed.fs.freeClust ≤ unknown :=
      counted ▸ Nat.min_le_right _ _
    rw [released.counter stillWord, counted, List.length_cons, counted_up]
  · rw [released.flagged, flag, flagBefore, counter]
    by_cases isUnknown : volume.fs.freeClust = unknown
    · simp [isUnknown, stays (counter.trans isUnknown)]
    · simp [isUnknown]
  · rw [released.last, last, lastBefore]

/-- Where the loop stops, the entry of a cluster that is not cleared yet decides. Nothing was
changed at that cluster. -/
theorem remove_loop_stops (fuel : Nat) (volume : Volume) (clst : Nat) (mounted : Mounted volume)
    (above : 2 ≤ clst) (stops : volume.fs.nFatent ≤ clst ∨ volume.link clst < 2) :
    ∃ looked, removeLoop (fuel + 1) volume clst = .ok (stopAnswer volume [] clst, looked) ∧
      Released volume looked [] := by
  by_cases below : clst < volume.fs.nFatent
  · obtain ⟨looked, read, same⟩ := get_fat_reads volume mounted clst ⟨above, below⟩
    have small : volume.link clst < 2 := stops.resolve_left (Nat.not_le_of_lt below)
    refine ⟨looked, ?_, released_none volume looked same⟩
    rw [removeLoop, if_pos below, read, stopAnswer]
    dsimp only
    by_cases free : volume.link clst = 0
    · rw [if_pos free, if_neg (by omega)]
    · have isOne : volume.link clst = 1 := by omega
      rw [if_neg free, if_pos isOne, if_pos ⟨below, List.not_mem_nil, isOne⟩]
  · refine ⟨volume, ?_, released_none volume volume (relinked_refl volume mounted)⟩
    rw [removeLoop, if_neg below, stopAnswer, if_neg (fun stopped => below stopped.1)]

/-- What was cleared first changes no answer: a cluster met again is free by then. So the answer
is the same whether it is asked of the volume before or behind. -/
theorem stop_answer_next (volume cleared : Volume) (clst stop : Nat) (clusters : List Nat)
    (count : cleared.fs.nFatent = volume.fs.nFatent)
    (links : ∀ other < volume.fs.nFatent,
      cleared.link other = Function.update volume.link clst 0 other) :
    stopAnswer cleared clusters stop = stopAnswer volume (clst :: clusters) stop := by
  simp only [stopAnswer, count, List.mem_cons, not_or]
  by_cases below : stop < volume.fs.nFatent
  · rw [links stop below, Function.update_apply]
    by_cases same : stop = clst
    · simp [same]
    · simp [same]
  · simp [below]

/-- On a FAT with any contents the loop clears what can be explored from the cluster, and stops
there: a cycle leads back to a cluster that is free by then.

Proof: each pass makes one more cluster free, and their number is bounded by that of the entries.
What is explored behind a pass is explored in the FAT as it was before. -/
theorem remove_loop_ends (fuel : Nat) (volume : Volume) (clst : Nat) (mounted : Mounted volume)
    (above : 2 ≤ clst)
    (enough : volume.fs.nFatent < fuel + (freeCells volume.link 2 volume.fs.nFatent).card) :
    ∃ after clusters stop,
      removeLoop fuel volume clst = .ok (stopAnswer volume clusters stop, after) ∧
      Explored volume.link 2 volume.fs.nFatent clst clusters stop ∧
      Released volume after clusters := by
  induction fuel generalizing volume clst with
  | zero =>
    have few := free_cells_bounded volume.link 2 volume.fs.nFatent
    omega
  | succ fuel inductionHypothesis =>
    by_cases goes : clst < volume.fs.nFatent ∧ 2 ≤ volume.link clst
    · obtain ⟨below, proper⟩ := goes
      obtain ⟨cleared, linked, step⟩ :=
        remove_loop_step volume mounted clst fuel ⟨above, below⟩ proper
      obtain ⟨countedMounted, sameLinks, countedKept⟩ :=
        count_freed_mounted cleared linked.mounted
      have kept := kept_trans _ _ _ (relinked_kept _ _ _ linked) countedKept
      have count : cleared.countFreed.fs.nFatent = volume.fs.nFatent := by rw [kept.layout]
      have links : ∀ other < volume.fs.nFatent, cleared.countFreed.link other =
          Function.update volume.link clst 0 other :=
        fun other otherBelow => (sameLinks other).trans (linked.linked other otherBelow)
      have more := free_cells_given volume.link 2 volume.fs.nFatent clst above below (by omega)
      have cells := free_cells_congr (Function.update volume.link clst 0)
        cleared.countFreed.link 2 volume.fs.nFatent (fun other _ otherBelow =>
          links other otherBelow)
      obtain ⟨after, clusters, stop, ran, explored, released⟩ := inductionHypothesis
        cleared.countFreed (volume.link clst) countedMounted proper (by rw [count, cells]; omega)
      rw [count] at explored
      have before := explored_congr _ (Function.update volume.link clst 0) _ _ _ _ _
        (fun other otherBelow => (links other otherBelow).symm) explored
      refine ⟨after, clst :: clusters, stop, step.trans (ran.trans ?_),
        explored_next _ _ _ _ _ _ (by decide) above below proper before,
        released_next volume cleared after clst clusters linked released⟩
      rw [stop_answer_next volume cleared.countFreed clst stop clusters count links]
    · have stops : volume.fs.nFatent ≤ clst ∨ volume.link clst < 2 := by omega
      obtain ⟨looked, ran, released⟩ := remove_loop_stops fuel volume clst mounted above stops
      exact ⟨looked, [], clst, ran, ⟨rfl, List.nodup_nil, fun _ member =>
        absurd member List.not_mem_nil, stops.imp_right Or.inr⟩, released⟩

/-- `remove_chain` ends whatever the FAT holds. Outside the volume it refuses the cluster and
changes nothing. Inside, it clears exactly what can be explored from the cluster, counts it, and
answers `FR_INT_ERR` if it is stopped by an entry of one and `FR_OK` otherwise. -/
theorem remove_chain_ends (volume : Volume) (mounted : Mounted volume) (clst : Nat) :
    ∃ res after clusters, removeChain volume clst = .ok (res, after) ∧
      Released volume after clusters ∧
      (¬ InRange volume.fs clst → res = .intErr ∧ after = volume ∧ clusters = []) ∧
      (InRange volume.fs clst → ∃ stop,
        Explored volume.link 2 volume.fs.nFatent clst clusters stop ∧
        res = stopAnswer volume clusters stop) := by
  rw [removeChain]
  by_cases outside : clst < 2 ∨ clst ≥ volume.fs.nFatent
  · have away : ¬ InRange volume.fs clst := fun inRange => by
      have bounds : 2 ≤ clst ∧ clst < volume.fs.nFatent := inRange
      omega
    rw [if_pos outside]
    exact ⟨.intErr, volume, [], rfl, released_none volume volume (relinked_refl volume mounted),
      fun _ => ⟨rfl, rfl, rfl⟩, fun inRange => absurd inRange away⟩
  · rw [if_neg outside]
    have inRange : InRange volume.fs clst := ⟨by omega, by omega⟩
    obtain ⟨after, clusters, stop, ran, explored, released⟩ :=
      remove_loop_ends (volume.fs.nFatent + 1) volume clst mounted inRange.1 (by omega)
    exact ⟨_, after, clusters, ran, released, fun away => absurd inRange away,
      fun _ => ⟨stop, explored, rfl⟩⟩

/-- On a small volume whose second and third cluster lead to each other it ends as well. The
second cluster is free by the time the loop comes back to it. -/
theorem small_cycle_removed :
    let volume := smallVolume (fatStart [0xF8, 0xFF, 0xFF, 0x03, 0x20])
    ∃ res after clusters, removeChain volume 2 = .ok (res, after) ∧
      Released volume after clusters ∧
      (¬ InRange volume.fs 2 → res = .intErr ∧ after = volume ∧ clusters = []) ∧
      (InRange volume.fs 2 → ∃ stop,
        Explored volume.link 2 volume.fs.nFatent 2 clusters stop ∧
        res = stopAnswer volume clusters stop) :=
  remove_chain_ends (smallVolume (fatStart [0xF8, 0xFF, 0xFF, 0x03, 0x20]))
    (small_volume_mounted _ (fat_start_length _ (by decide))) 2

end EffiLib.FatFs
