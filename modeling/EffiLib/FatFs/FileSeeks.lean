import EffiLib.FatFs.FileWrites

/-!
# Moving the pointer and cutting a file

`f_lseek` follows the chain of clusters from the current one or from the first. Where the file
may be written it stretches the chain, so that the pointer may go past the end of the file as
far as there are clusters; elsewhere it stops at the end. `f_truncate` gives back the clusters
behind the pointer. Neither changes a byte in front of the end of the file.
-/

namespace EffiLib.FatFs

open Buffers Sectors BlockCache PlacedBytes ChainTable

/-- The file object but for its pointer, its size, its clusters and its buffer. Its mode and its
entry are among what is the same. -/
def SameOpen (fp after : FIL) : Prop :=
  after = { fp with
    faWritten := after.faWritten, faDirty := after.faDirty, fptr := after.fptr,
    fsize := after.fsize, sclust := after.sclust, clust := after.clust, dsect := after.dsect,
    buf := after.buf }

/-- Clearing the low bits of a word. It is the start of the block of that size. -/
theorem clear_low (word exponent : Nat) (small : word < 2 ^ 32) :
    word &&& (0xFFFFFFFF ^^^ (2 ^ exponent - 1)) = 2 ^ exponent * (word / 2 ^ exponent) := by
  have ones : (0xFFFFFFFF : Nat) = 2 ^ 32 - 1 := rfl
  refine Nat.eq_of_testBit_eq (fun place => ?_)
  rw [ones, Nat.testBit_and, Nat.testBit_xor, Nat.testBit_two_pow_sub_one,
    Nat.testBit_two_pow_sub_one, Nat.testBit_two_pow_mul, Nat.testBit_div_two_pow]
  by_cases inWord : place < 32
  · by_cases low : place < exponent
    · simp [inWord, low, Nat.not_le.mpr low]
    · simp [inWord, low, Nat.le_of_not_lt low]
  · have cleared : word.testBit place = false :=
      Nat.testBit_lt_two_pow (small.trans_le (Nat.pow_le_pow_right (by decide) (by omega)))
    by_cases high : exponent ≤ place
    · simp [cleared, high]
    · simp [cleared, high]

section Seeks

variable (start : FATFS) (lost : List Nat) (front back : List (List Nat)) (chain : List Nat)
  (file : OpenFile)

/-- A cluster is a power of two of bytes. So the mask of the source finds the start of a
cluster. -/
theorem cluster_size_power (placed : DataPlaced start) :
    ∃ exponent, clusterSize start = 2 ^ exponent ∧ clusterSize start ≤ 65536 := by
  obtain ⟨exponent, small, power⟩ := placed.power
  have bounds := csize_bounds start placed
  have size : sectorSize = 512 := rfl
  refine ⟨exponent + 9, ?_, ?_⟩
  · rw [clusterSize, power, Nat.pow_add]
    rfl
  · rw [clusterSize, size]
    omega

/-- The offset of the cluster of the byte in front of the pointer. The source computes it by a
mask. -/
theorem cluster_start (placed : DataPlaced start) (fs : FATFS) (layout : SameLayout start fs)
    (place : Nat) (small : place < 2 ^ 32) :
    place &&& (0xFFFFFFFF ^^^ dwordDiff (clusterSize fs) 1) =
      clusterSize start * (place / clusterSize start) := by
  obtain ⟨exponent, power, most⟩ := cluster_size_power start placed
  have positive := cluster_size_pos start placed
  have same : clusterSize fs = clusterSize start := by
    rw [clusterSize, layout]
    rfl
  rw [same, dword_diff_small _ _ (by omega) positive, power]
  exact clear_low place exponent small

/-- A state of the loop of `f_lseek`: the pointer is at the start of the current cluster. The
offset that is left is counted from there. -/
structure AtCluster (place : Nat) : Prop where
  storage : Storage start lost (front ++ chain :: back) file.volume
  backed : Backed start lost chain file
  pointer : file.fp.fptr = clusterSize start * place
  here : chain[place]? = some file.fp.clust

/-- What a part of `f_lseek` leaves that only follows and stretches the chain. The buffer is not
used by it. -/
structure Followed (after : OpenFile) : Prop where
  calm : Calm start lost file.volume after.volume
  object : after.fp = { file.fp with
    fptr := after.fp.fptr, sclust := after.fp.sclust, clust := after.fp.clust }

/-- Two parts of following a chain are one. The chain has grown by what both have added. -/
theorem followed_trans (middle after : OpenFile) (first : Followed start lost file middle)
    (second : Followed start lost middle after) : Followed start lost file after where
  calm := calm_trans start lost _ _ _ first.calm second.calm
  object := by rw [second.object, first.object]

/-- The next cluster of a file, which is stretched where it may be written. A full volume ends the
chain. -/
theorem seek_cluster_next (placed : DataPlaced start) (place : Nat)
    (storage : Storage start lost (front ++ chain :: back) file.volume) (clst : Nat)
    (here : chain[place]? = some clst)
    (reads : file.fp.faWrite = false → place + 1 < chain.length) :
    (∃ volume, file.seekCluster clst = .ok (0, volume) ∧
      Storage start lost (front ++ chain :: back) volume ∧ Calm start lost file.volume volume ∧
      file.fp.faWrite = true ∧ chain.length = place + 1 ∧
      chain.length = clustersFor start lost (front ++ back)) ∨
    ∃ volume next more, file.seekCluster clst = .ok (next, volume) ∧ InRange start next ∧
      Storage start lost (front ++ (chain ++ more) :: back) volume ∧
      Calm start lost file.volume volume ∧ (chain ++ more)[place + 1]? = some next ∧
      (more = [] ∨ file.fp.faWrite = true ∧ more = [next] ∧ chain.length = place + 1) := by
  rw [OpenFile.seekCluster]
  cases mode : file.fp.faWrite with
  | true =>
    rcases create_chain_next start lost front back chain file placed place clst storage here with
      ⟨volume, created, newStorage, calm, last, room⟩ |
      ⟨volume, next, more, created, nextRange, newStorage, calm, nextHere, grown⟩
    · exact Or.inl ⟨volume, created, newStorage, calm, rfl, last, room⟩
    · exact Or.inr ⟨volume, next, more, created, nextRange, newStorage, calm, nextHere,
        grown.imp_right (fun both => ⟨rfl, both.1, both.2⟩)⟩
  | false =>
    obtain ⟨_, inRange, _, _⟩ := storage_cells start lost front back chain _ storage
    have behind := List.getElem?_eq_getElem (reads mode)
    obtain ⟨cellRange, linked⟩ := chain_next lost front back chain file.volume storage.consistent
      place clst _ here behind
    obtain ⟨after, read, same⟩ := get_fat_reads file.volume storage.consistent.mounted _ cellRange
    obtain ⟨kept, calm⟩ := relinked_storage start lost placed _ file.volume after storage same
    rw [linked] at read
    refine Or.inr ⟨after, _, [], congrArg Except.ok read, inRange _ (List.mem_of_getElem? behind),
      ?_,
      calm, ?_, Or.inl rfl⟩
    · rw [List.append_nil]
      exact kept
    · rw [List.append_nil]
      exact behind

/-- The start of a chain is that of a longer one. So the first cluster stays when a file grows. -/
theorem head_d_append (more : List Nat) (nonempty : chain ≠ []) :
    (chain ++ more).headD 0 = chain.headD 0 := by
  cases chain with
  | nil => exact absurd rfl nonempty
  | cons clst rest => rfl

/-- Where the loop of `f_lseek` ends: in a cluster with some bytes of it to go. These lead to the
offset, or to the end of the last cluster that a full volume had. New clusters were needed for
that. -/
structure Reaches (place ofs code rest : Nat) (after : OpenFile) (more : List Nat)
    (reached : Nat) : Prop where
  ends : AtCluster start lost front back (chain ++ more) after reached
  followed : Followed start lost file after
  onward : place ≤ reached
  nonzero : 0 < rest
  few : rest ≤ clusterSize start
  named : rest % sectorSize ≠ 0 → code = after.fp.clust
  stopped : clusterSize start * reached + rest = clusterSize start * place + ofs ∨
    file.fp.faWrite = true ∧
    clusterSize start * reached + rest = clusterSize start * (chain ++ more).length ∧
    (chain ++ more).length = clustersFor start lost (front ++ back) ∧
    clusterSize start * reached + rest < clusterSize start * place + ofs
  needed : more = [] ∨ file.fp.faWrite = true ∧
    clusterSize start * ((chain ++ more).length - 1) < clusterSize start * reached + rest

/-- An offset inside the cluster ends the loop there. The current cluster is the one of the offset
then. -/
theorem reaches_here (place ofs : Nat) (state : AtCluster start lost front back chain file place)
    (nonzero : 0 < ofs) (near : ofs ≤ clusterSize start) :
    Reaches start lost front back chain file place ofs file.fp.clust ofs file [] place where
  ends := by
    rw [List.append_nil]
    exact state
  followed := ⟨calm_refl .., rfl⟩
  onward := Nat.le_refl _
  nonzero := nonzero
  few := near
  named := fun _ => rfl
  stopped := Or.inl rfl
  needed := Or.inl rfl

/-- The end of a full volume ends the loop at the end of the cluster. The rest of the offset is
cut to what the cluster has. -/
theorem reaches_full (place ofs : Nat) (placed : DataPlaced start)
    (state : AtCluster start lost front back chain file place) (far : clusterSize start < ofs)
    (volume : Volume) (storage : Storage start lost (front ++ chain :: back) volume)
    (calm : Calm start lost file.volume volume) (writes : file.fp.faWrite = true)
    (last : chain.length = place + 1)
    (full : chain.length = clustersFor start lost (front ++ back)) :
    Reaches start lost front back chain file place ofs 0 (clusterSize start) ⟨volume, file.fp⟩ []
      place where
  ends := by
    rw [List.append_nil]
    exact ⟨storage, backed_calm start lost chain file volume file.fp.clust calm state.backed,
      state.pointer, state.here⟩
  followed := ⟨calm, rfl⟩
  onward := Nat.le_refl _
  nonzero := cluster_size_pos start placed
  few := Nat.le_refl _
  named := by
    intro off
    rw [clusterSize, Nat.mul_mod_left] at off
    exact absurd rfl off
  stopped := by
    rw [List.append_nil]
    refine Or.inr ⟨writes, by rw [last, Nat.mul_succ], full, ?_⟩
    omega
  needed := Or.inl rfl

/-- A step of the loop to the next cluster, which may be a new one. What was gained has no bytes
of the file yet. -/
theorem at_next_cluster (place next : Nat) (volume : Volume) (more : List Nat)
    (state : AtCluster start lost front back chain file place)
    (storage : Storage start lost (front ++ (chain ++ more) :: back) volume)
    (calm : Calm start lost file.volume volume) (here : (chain ++ more)[place + 1]? = some next) :
    AtCluster start lost front back (chain ++ more)
      ⟨volume, { file.fp with clust := next, fptr := clusterSize start * (place + 1) }⟩
      (place + 1) := by
  obtain ⟨inside, _⟩ := List.getElem?_eq_some_iff.mp state.here
  have nonempty : chain ≠ [] := List.ne_nil_of_length_pos (by omega)
  have head := state.backed.started.trans (head_d_append chain more nonempty).symm
  have sized := state.backed.sized
  have longer := Nat.mul_add (clusterSize start) chain.length more.length
  rw [← List.length_append] at longer
  exact ⟨storage, ⟨state.backed.valid, state.backed.going, head, by dsimp only; omega,
    state.backed.filled, data_coherent start lost chain file volume calm.data state.backed,
    state.backed.settled⟩, rfl, here⟩

/-- Where the loop ends behind such a step it ends from the cluster in front of it. The clusters
gained by the step and those gained behind it are counted together. -/
theorem reaches_next (place ofs code rest next : Nat) (volume : Volume) (after : OpenFile)
    (more further : List Nat) (reached : Nat) (far : clusterSize start < ofs)
    (calm : Calm start lost file.volume volume)
    (grown : more = [] ∨ file.fp.faWrite = true ∧ more = [next] ∧ chain.length = place + 1)
    (later : Reaches start lost front back (chain ++ more)
      ⟨volume, { file.fp with clust := next, fptr := clusterSize start * (place + 1) }⟩
      (place + 1) (ofs - clusterSize start) code rest after further reached) :
    Reaches start lost front back chain file place ofs code rest after (more ++ further)
      reached := by
  obtain ⟨ends, followed, onward, nonzero, few, named, stopped, needed⟩ := later
  have moved : Followed start lost file ⟨volume, { file.fp with
      clust := next, fptr := clusterSize start * (place + 1) }⟩ := ⟨calm, rfl⟩
  rw [List.append_assoc] at ends stopped needed
  rw [Nat.mul_succ] at stopped
  refine ⟨ends, followed_trans start lost file _ after moved followed, by omega, nonzero, few,
    named, ?_, ?_⟩
  · refine stopped.imp (fun all => by omega) (fun full => ⟨full.1, full.2.1, full.2.2.1, ?_⟩)
    omega
  · rcases needed with isEmpty | late
    · subst isEmpty
      rw [List.append_nil] at stopped ⊢
      refine grown.imp_right (fun both => ⟨both.1, ?_⟩)
      rw [List.length_append, both.2.1, List.length_singleton, Nat.add_sub_cancel, both.2.2]
      have further := Nat.mul_le_mul_left (clusterSize start) onward
      omega
    · exact Or.inr late

/-- The loop of `f_lseek` reaches the cluster of the offset, or the end of a full volume.

Proof: induction on the fuel, of which each pass to another cluster takes at most a byte of the
offset. A pass ends here, ends at the end of a full volume, or goes on from the next cluster. -/
theorem seek_loop_follows (placed : DataPlaced start) (fuel place ofs : Nat)
    (state : AtCluster start lost front back chain file place) (nonzero : 0 < ofs)
    (reads : file.fp.faWrite = false →
      clusterSize start * place + ofs ≤ clusterSize start * chain.length)
    (enough : ofs < fuel) :
    ∃ code rest after more reached,
      file.seekLoop fuel file.fp.clust ofs = .ok (.ok, code, rest, after) ∧
      Reaches start lost front back chain file place ofs code rest after more reached := by
  induction fuel generalizing file chain place ofs with
  | zero => exact absurd enough (Nat.not_lt_zero _)
  | succ fuel inductionHypothesis =>
    have positive := cluster_size_pos start placed
    have same : clusterSize file.volume.fs = clusterSize start := by
      rw [clusterSize, state.storage.layout]
      rfl
    obtain ⟨inside, _⟩ := List.getElem?_eq_some_iff.mp state.here
    have room := Nat.mul_le_mul_left (clusterSize start) (Nat.succ_le_of_lt inside)
    rw [Nat.mul_succ] at room
    have bytes := chain_bytes start lost front back chain placed file.volume state.storage
    have disk : diskSize < 2 ^ 32 := by decide
    rw [OpenFile.seekLoop, same]
    dsimp only
    by_cases far : ofs > clusterSize start
    · rw [if_pos far]
      have readsOn : file.fp.faWrite = false → place + 1 < chain.length := by
        intro mode
        have bound := reads mode
        refine Nat.lt_of_mul_lt_mul_left (a := clusterSize start) ?_
        rw [Nat.mul_succ]
        omega
      rcases seek_cluster_next start lost front back chain file placed place state.storage
          file.fp.clust state.here readsOn with
        ⟨volume, next, newStorage, calm, writes, last, full⟩ |
        ⟨volume, next, more, found, nextRange, newStorage, calm, nextHere, grown⟩
      · refine ⟨0, clusterSize start, ⟨volume, file.fp⟩, [], place, ?_, reaches_full start lost
          front back chain file place ofs placed state far volume newStorage calm writes last full⟩
        rw [next, ok_bind]
        dsimp only
        rw [if_pos ⟨writes, rfl⟩]
      · have limited := newStorage.consistent.mounted.limited
        have count : volume.fs.nFatent = start.nFatent := by rw [newStorage.layout]
        have range := entry_range_small volume.fs.fsType
        rw [InRange] at nextRange
        have sum : dwordSum file.fp.fptr (clusterSize start) = clusterSize start * (place + 1) := by
          rw [state.pointer, dword_sum_small _ _ (by omega), Nat.mul_succ]
        have longer := Nat.mul_add (clusterSize start) chain.length more.length
        rw [← List.length_append] at longer
        obtain ⟨code, rest, after, further, reached, ran, later⟩ := inductionHypothesis
          (chain ++ more)
          ⟨volume, { file.fp with clust := next, fptr := clusterSize start * (place + 1) }⟩
          (place + 1) (ofs - clusterSize start)
          (at_next_cluster start lost front back chain file place next volume more state newStorage
            calm nextHere) (by omega)
          (fun mode => by
            have bound := reads mode
            rw [Nat.mul_succ]
            omega)
          (by omega)
        refine ⟨code, rest, after, more ++ further, reached, ?_, reaches_next start lost front back
          chain file place ofs code rest next volume after more further reached far calm grown
          later⟩
        rw [found, ok_bind]
        dsimp only
        rw [if_neg (fun both => by omega), if_neg (by omega), if_neg (by omega), sum, ran]
    · rw [if_neg far]
      exact ⟨file.fp.clust, ofs, file, [], place, rfl, reaches_here start lost front back chain file
        place ofs state nonzero (Nat.le_of_not_lt far)⟩

/-- `f_lseek` starts in a cluster of the file, or the file has none and gets none. It goes on from
the current cluster if the offset is not in front of it. -/
theorem seek_start_places (placed : DataPlaced start)
    (storage : Storage start lost (front ++ chain :: back) file.volume)
    (tracks : Tracks start lost chain file) (ofs : Nat) (nonzero : 0 < ofs) (small : ofs < 2 ^ 32)
    (reads : file.fp.faWrite = false → ofs ≤ clusterSize start * chain.length) :
    (∃ volume, file.seekStart ofs = .ok (.ok, 0, ofs, ⟨volume, { file.fp with
        fptr := 0, sclust := 0, clust := 0 }⟩) ∧
      Storage start lost (front ++ chain :: back) volume ∧ Calm start lost file.volume volume ∧
      file.fp.faWrite = true ∧ chain = [] ∧ clustersFor start lost (front ++ back) = 0) ∨
    ∃ rest after more place, file.seekStart ofs = .ok (.ok, after.fp.clust, rest, after) ∧
      AtCluster start lost front back (chain ++ more) after place ∧
      Followed start lost file after ∧ 0 < rest ∧ clusterSize start * place + rest = ofs ∧
      (more = [] ∨ file.fp.faWrite = true ∧ more.length = 1 ∧ chain = []) := by
  have backed := tracks.backed
  have positive := cluster_size_pos start placed
  have within := tracks.within
  have bytes := chain_bytes start lost front back chain placed file.volume storage
  have disk : diskSize < 2 ^ 32 := by decide
  have same : clusterSize file.volume.fs = clusterSize start := by
    rw [clusterSize, storage.layout]
    rfl
  rw [OpenFile.seekStart, cluster_start start placed file.volume.fs storage.layout _
    (show file.fp.fptr - 1 < 2 ^ 32 by omega), same]
  dsimp only
  by_cases onward : file.fp.fptr > 0 ∧
      (ofs - 1) / clusterSize start ≥ (file.fp.fptr - 1) / clusterSize start
  · have less : clusterSize start * ((file.fp.fptr - 1) / clusterSize start) < ofs := by
      have whole := Nat.mul_le_mul_left (clusterSize start) onward.2
      have low := Nat.mul_div_le (ofs - 1) (clusterSize start)
      omega
    rw [if_pos onward, dword_diff_small _ _ small less.le]
    refine Or.inr ⟨ofs - clusterSize start * ((file.fp.fptr - 1) / clusterSize start),
      { file with fp := { file.fp with
        fptr := clusterSize start * ((file.fp.fptr - 1) / clusterSize start) } }, [],
      (file.fp.fptr - 1) / clusterSize start, rfl, ?_, ⟨calm_refl .., rfl⟩, by omega, by omega,
      Or.inl rfl⟩
    rw [List.append_nil]
    exact ⟨storage, ⟨backed.valid, backed.going, backed.started, backed.sized, backed.filled,
      backed.coherent, backed.settled⟩, rfl, tracks.current onward.1⟩
  · rw [if_neg onward]
    cases chain with
    | nil =>
      have isZero : file.fp.sclust = 0 := backed.started
      have writes : file.fp.faWrite = true := by
        cases mode : file.fp.faWrite with
        | true => rfl
        | false =>
          have bound := reads mode
          rw [List.length_nil] at bound
          omega
      rw [if_pos isZero]
      rcases create_chain_first start lost front back file placed storage with
        ⟨volume, created, newStorage, calm, room⟩ | ⟨volume, next, created, nextRange, newStorage,
        calm⟩
      · refine Or.inl ⟨volume, ?_, newStorage, calm, writes, rfl, room⟩
        rw [created, ok_bind]
        rfl
      · have limited := newStorage.consistent.mounted.limited
        have count : volume.fs.nFatent = start.nFatent := by rw [newStorage.layout]
        have range := entry_range_small volume.fs.fsType
        rw [InRange] at nextRange
        refine Or.inr ⟨ofs, ⟨volume, { file.fp with fptr := 0, sclust := next, clust := next }⟩,
          [next], 0, ?_, ⟨newStorage, ⟨backed.valid, backed.going, rfl, ?_, backed.filled,
            data_coherent start lost [] file volume calm.data backed, backed.settled⟩, rfl, rfl⟩,
          ⟨calm, rfl⟩, nonzero, by omega, Or.inr ⟨writes, rfl, rfl⟩⟩
        · rw [created, ok_bind]
          dsimp only
          rw [if_neg (by omega), if_neg (by omega)]
        · have sized := backed.sized
          rw [List.length_nil, Nat.mul_zero] at sized
          exact sized.trans (Nat.zero_le _)
    | cons clst rest =>
      obtain ⟨_, inRange, _, _⟩ := storage_cells start lost front back _ _ storage
      have head : file.fp.sclust = clst := backed.started
      have above := (inRange clst List.mem_cons_self).1
      rw [if_neg (by omega)]
      refine Or.inr ⟨ofs, { file with fp := { file.fp with fptr := 0, clust := file.fp.sclust } },
        [], 0, rfl, ?_, ⟨calm_refl .., rfl⟩, nonzero, by omega, Or.inl rfl⟩
      rw [List.append_nil]
      refine ⟨storage, ⟨backed.valid, backed.going, backed.started, backed.sized, backed.filled,
        backed.coherent, backed.settled⟩, rfl, ?_⟩
      rw [head]
      rfl

/-- The end of `f_lseek` lets the buffer take the sector of the pointer. On a boundary the buffer
is left as it is. -/
theorem seek_buf_passes (placed : DataPlaced start)
    (storage : Storage start lost (front ++ chain :: back) file.volume)
    (backed : Backed start lost chain file)
    (within : file.fp.fptr ≤ clusterSize start * chain.length)
    (current : 0 < file.fp.fptr →
      chain[(file.fp.fptr - 1) / clusterSize start]? = some file.fp.clust) (nsect : Nat)
    (sought : file.fp.fptr % sectorSize ≠ 0 →
      nsect = dataSector start chain (file.fp.fptr / sectorSize)) :
    ∃ after, file.seekBuf nsect = (.ok, after) ∧
      Passed start lost front back chain file 0 after := by
  by_cases moves : file.fp.fptr % sectorSize ≠ 0 ∧ nsect ≠ file.fp.dsect
  · have inside : file.fp.fptr < clusterSize start * chain.length := by
      refine Nat.lt_of_le_of_ne within (fun ended => moves.1 ?_)
      rw [ended, clusterSize, Nat.mul_right_comm, Nat.mul_mod_left]
    have sector := sought moves.1
    subst sector
    obtain ⟨after, exchanged, served, object, seen⟩ :=
      exchange_buf_serves start placed lost front back
      chain file storage backed _ (byte_block start chain file.fp.fptr inside) (Ne.symm moves.2)
    have pointer : after.fp.fptr = file.fp.fptr := by rw [object]
    refine ⟨after, by rw [OpenFile.seekBuf, if_pos moves, exchanged], served,
      ⟨served.backed, by rw [pointer]; exact within, fun _ => ?_, fun _ => ?_⟩,
      by rw [pointer, Nat.add_zero], by rw [SameFile, object], fun number _ => seen number,
      fun dirty => ?_⟩
    · rw [object]
      exact current (by omega)
    · rw [object]
    · rw [object] at dirty
      exact absurd dirty Bool.noConfusion
  · refine ⟨file, by rw [OpenFile.seekBuf, if_neg moves],
      served_calm start lost front back file _ chain
      storage backed (calm_refl ..) rfl, ⟨backed, within, current, fun off => ?_⟩, rfl, rfl,
      fun _ _ => rfl, id⟩
    rw [← sought off]
    exact (Decidable.not_not.mp (fun apart => moves ⟨off, apart⟩)).symm

/-- What `f_lseek` leaves: the pointer is at its place, the file reaches up to it, and its bytes are
seen as before. -/
structure Sought (place : Nat) (after : OpenFile) (changed : List Nat) : Prop where
  served : Served start lost front back file after changed
  tracks : Tracks start lost changed after
  pointer : after.fp.fptr = place
  size : after.fp.fsize = max file.fp.fsize place
  same : SameOpen file.fp after.fp
  seen : ∀ number, Available start lost number →
    after.cache.view number = file.cache.view number
  marked : after.fp.faWritten = (file.fp.faWritten || decide (file.fp.fsize < place))
  calmer : after.fp.faDirty = true → file.fp.faDirty = true

/-- The end of `f_lseek` leaves that, behind the chain was followed. The size follows the pointer
if that has passed it. -/
theorem seek_end_seeks (placed : DataPlaced start) (middle : OpenFile)
    (followed : Followed start lost file middle)
    (storage : Storage start lost (front ++ chain :: back) middle.volume)
    (backed : Backed start lost chain middle)
    (within : middle.fp.fptr ≤ clusterSize start * chain.length)
    (current : 0 < middle.fp.fptr →
      chain[(middle.fp.fptr - 1) / clusterSize start]? = some middle.fp.clust) (nsect : Nat)
    (sought : middle.fp.fptr % sectorSize ≠ 0 →
      nsect = dataSector start chain (middle.fp.fptr / sectorSize)) :
    ∃ after, middle.seekEnd nsect = (.ok, after) ∧
      Sought start lost front back file middle.fp.fptr after chain := by
  obtain ⟨loaded, passes, passed⟩ :=
    seek_buf_passes start lost front back chain middle placed storage
    backed within current nsect sought
  have tracks := passed.tracks
  have pointer : loaded.fp.fptr = middle.fp.fptr := passed.pointer
  have size : loaded.fp.fsize = file.fp.fsize := by rw [passed.same, followed.object]
  have buffer : middle.fp.dsect = file.fp.dsect := by rw [followed.object]
  have same : SameOpen file.fp loaded.fp := by rw [SameOpen, passed.same, followed.object]
  have seen : ∀ number, Available start lost number →
      loaded.cache.view number = file.cache.view number := by
    intro number available
    rw [passed.seen number available]
    have fetched := data_view start lost file middle.volume followed.calm.data number available
    rw [← fetched, Cache.view, Cache.view, OpenFile.cache, OpenFile.cache, followed.object]
  have served : Served start lost front back file loaded chain := by
    refine ⟨passed.served.storage, passed.served.backed, fun number available apart other => ?_,
      buffer ▸ passed.served.place, fun number beside => ?_⟩
    · rw [passed.served.others number available apart (buffer ▸ other)]
      exact followed.calm.data number available
    · rw [passed.served.beside number beside]
      exact followed.calm.others number beside
  have calmer : loaded.fp.faDirty = true → file.fp.faDirty = true := by
    intro dirty
    have before := passed.calmer dirty
    rw [followed.object] at before
    exact before
  rw [OpenFile.seekEnd, passes]
  dsimp only
  by_cases longer : loaded.fp.fptr > loaded.fp.fsize
  · rw [if_pos longer]
    have within := tracks.within
    have grown : Backed start lost chain { loaded with fp := { loaded.fp with
        fsize := loaded.fp.fptr, faWritten := true } } :=
      ⟨tracks.backed.valid, tracks.backed.going, tracks.backed.started, within,
        tracks.backed.filled, tracks.backed.coherent, tracks.backed.settled⟩
    have far : file.fp.fsize < middle.fp.fptr := by omega
    refine ⟨_, rfl, ⟨⟨served.storage, grown, served.others, served.place, served.beside⟩,
      ⟨grown, within, tracks.current, tracks.held⟩, pointer, ?_, ?_, seen, ?_, calmer⟩⟩
    · show loaded.fp.fptr = _
      omega
    · rw [SameOpen, same]
    · rw [decide_eq_true far, Bool.or_true]
  · have unwritten : loaded.fp.faWritten = file.fp.faWritten := by rw [passed.same, followed.object]
    have near : ¬ file.fp.fsize < middle.fp.fptr := by omega
    rw [if_neg longer]
    refine ⟨loaded, rfl, ⟨served, tracks, pointer, by omega, same, seen, ?_, calmer⟩⟩
    rw [decide_eq_false near, Bool.or_false]
    exact unwritten

/-- The sector of an offset in a cluster of the file. On a boundary none is looked for. -/
theorem seek_sector_places (placed : DataPlaced start)
    (storage : Storage start lost (front ++ chain :: back) file.volume)
    (reached offset code clst : Nat)
    (here : chain[reached]? = some clst) (few : offset ≤ clusterSize start)
    (isCode : offset % sectorSize ≠ 0 → code = clst) :
    ∃ nsect, file.seekSector code offset = (.ok, nsect) ∧ (offset % sectorSize ≠ 0 →
      nsect = dataSector start chain ((clusterSize start * reached + offset) / sectorSize)) := by
  by_cases off : offset % sectorSize ≠ 0
  · obtain ⟨_, inRange, _, _⟩ := storage_cells start lost front back _ _ storage
    have cell := inRange _ (List.mem_of_getElem? here)
    have reserved := storage.consistent.mounted.sound.placed.reserved
    have base : file.volume.fs.fatbase = start.fatbase := by rw [storage.layout]
    have behind := placed.behind
    have sectors : sectorCount = 10240 := rfl
    have bounds := csize_bounds start placed
    have early : offset / sectorSize < start.csize := by
      refine Nat.div_lt_of_lt_mul (Nat.lt_of_le_of_ne ?_ (fun ended => off ?_))
      · rw [Nat.mul_comm]
        exact few
      · rw [ended, Nat.mul_mod_right]
    have first := clust2sect_inside start placed file.volume.fs storage.layout clst cell
    have bound := sector_inside start placed clst _ cell early
    have index : (clusterSize start * reached + offset) / sectorSize =
        start.csize * reached + offset / sectorSize := by
      rw [clusterSize, Nat.mul_right_comm, Nat.add_comm, Nat.add_mul_div_right _ _ (by decide),
        Nat.add_comm]
    obtain ⟨block, place⟩ := index_block start.csize bounds.1 reached _ early
    refine ⟨_, ?_, fun _ => rfl⟩
    rw [OpenFile.seekSector, if_pos off, isCode off, first]
    dsimp only
    rw [if_neg (by omega), dword_sum_small _ _ (by omega), index, dataSector, block, place,
      List.getD_eq_getElem?_getD, here, Option.getD_some]
  · exact ⟨0, by rw [OpenFile.seekSector, if_neg off], fun isOff => absurd isOff off⟩

/-- `f_lseek` to an offset that is not zero reaches it, or the end of a full volume. Proof: the
start, the loop and the end of the function, each by its own lemma. -/
theorem seek_to_seeks (placed : DataPlaced start)
    (storage : Storage start lost (front ++ chain :: back) file.volume)
    (tracks : Tracks start lost chain file) (ofs : Nat) (nonzero : 0 < ofs) (small : ofs < 2 ^ 32)
    (reads : file.fp.faWrite = false → ofs ≤ clusterSize start * chain.length) :
    ∃ after grown, file.seekTo ofs = .ok (.ok, after) ∧
      Sought start lost front back file
        (min ofs (clusterSize start * clustersFor start lost (front ++ back))) after
        (chain ++ grown) ∧
      (grown = [] ∨ file.fp.faWrite = true ∧ clusterSize start * ((chain ++ grown).length - 1) <
        min ofs (clusterSize start * clustersFor start lost (front ++ back))) := by
  have positive := cluster_size_pos start placed
  rw [OpenFile.seekTo]
  rcases seek_start_places start lost front back chain file placed storage tracks ofs nonzero small
    reads
    with ⟨volume, started, newStorage, calm, writes, rfl, room⟩ |
    ⟨rest, first, more, place, started, state, followed, restSome, total, isMore⟩
  · obtain ⟨after, ended, sought⟩ := seek_end_seeks start lost front back [] file placed
      ⟨volume, { file.fp with fptr := 0, sclust := 0, clust := 0 }⟩ ⟨calm, rfl⟩ newStorage
      ⟨tracks.backed.valid, tracks.backed.going, rfl, tracks.backed.sized, tracks.backed.filled,
        data_coherent start lost [] file volume calm.data tracks.backed, tracks.backed.settled⟩
      (Nat.zero_le _) (fun positive => absurd positive (Nat.lt_irrefl 0)) 0
      (fun off => absurd (Nat.zero_mod _) off)
    refine ⟨after, [], ?_, ?_, Or.inl rfl⟩
    · rw [started, ok_bind]
      dsimp only
      rw [if_neg (not_not_intro rfl), ended]
    · rw [room, Nat.mul_zero, Nat.min_zero]
      exact sought
  · obtain ⟨code, offset, second, further, reached, ran, ends, moved, onward, offsetSome, offsetFew,
        isCode, stopped, isFurther⟩ := seek_loop_follows start lost front back (chain ++ more) first
      placed (rest + 1) place rest state restSome (fun mode => by
        have bound := reads (by rw [← mode, followed.object])
        rw [total, List.length_append, Nat.mul_add]
        exact bound.trans (Nat.le_add_right _ _)) (Nat.lt_succ_self _)
    have writes : first.fp.faWrite = file.fp.faWrite := by rw [followed.object]
    rw [List.append_assoc, total, writes] at stopped
    rw [List.append_assoc, writes] at isFurther
    rw [List.append_assoc] at ends
    have bytes := chain_bytes start lost front back _ placed second.volume ends.storage
    have disk : diskSize < 2 ^ 32 := by decide
    have few := Nat.mul_le_mul_left (clusterSize start)
      (storage_few start lost front back _ second.volume ends.storage)
    generalize changedIs : chain ++ (more ++ further) = changed at *
    obtain ⟨inside, _⟩ := List.getElem?_eq_some_iff.mp ends.here
    have whole := Nat.mul_le_mul_left (clusterSize start) (Nat.succ_le_of_lt inside)
    rw [Nat.mul_succ] at whole
    have pointer : (second.advance offset).fp.fptr = clusterSize start * reached + offset := by
      rw [OpenFile.advance, ends.pointer]
      exact dword_sum_small _ _ (by omega)
    have goal : clusterSize start * reached + offset =
        min ofs (clusterSize start * clustersFor start lost (front ++ back)) := by
      rcases stopped with all | ⟨_, full, length, less⟩
      · omega
      · rw [← length, ← full]
        omega
    have backed := ends.backed
    obtain ⟨_, startRange, _, _⟩ := storage_cells start lost front back _ _ state.storage
    have cell := (startRange _ (List.mem_of_getElem? state.here)).1
    obtain ⟨nsect, sector, isSector⟩ := seek_sector_places start lost front back changed
      (second.advance offset) placed ends.storage reached offset code _ ends.here offsetFew isCode
    have onSector : (clusterSize start * reached + offset) % sectorSize = offset % sectorSize := by
      rw [clusterSize, Nat.mul_right_comm, Nat.mul_add_mod_self_right]
    have block : (clusterSize start * reached + offset - 1) / clusterSize start = reached := by
      have split : clusterSize start * reached + offset - 1 =
          clusterSize start * reached + (offset - 1) := by omega
      rw [split]
      exact (index_block (clusterSize start) positive reached _ (by omega)).1
    have whole := followed_trans start lost file first second followed moved
    have advanced : Followed start lost file (second.advance offset) :=
      ⟨whole.calm, by rw [OpenFile.advance, whole.object]⟩
    obtain ⟨after, ended, sought⟩ := seek_end_seeks start lost front back changed file placed
      (second.advance offset) advanced ends.storage ⟨backed.valid, backed.going, backed.started,
        backed.sized, backed.filled, backed.coherent, backed.settled⟩ (by rw [pointer]; omega)
      (fun _ => by rw [pointer, block]; exact ends.here) nsect
      (fun off => by
        rw [pointer] at off ⊢
        exact isSector (onSector ▸ off))
    refine ⟨after, more ++ further, ?_, ?_, ?_⟩
    · rw [started, ok_bind]
      dsimp only
      rw [if_pos (by omega), ran, ok_bind]
      dsimp only
      rw [sector]
      dsimp only
      rw [ended]
    · rw [changedIs, ← goal, ← pointer]
      exact sought
    · rw [changedIs, ← goal]
      rcases isFurther with isEmpty | late
      · refine isMore.imp (fun same => by rw [same, isEmpty, List.nil_append]) (fun only => ?_)
        have one : changed.length - 1 = 0 := by
          rw [← changedIs, only.2.2, isEmpty, List.append_nil, List.nil_append, only.2.1]
        refine ⟨only.1, ?_⟩
        rw [one, Nat.mul_zero]
        omega
      · exact Or.inr late

/-- `f_lseek` reaches an offset as far as the file or the volume goes. A file that may be written
can grow up to it, and in another one the offset is cut to the size. -/
theorem f_lseek_seeks (placed : DataPlaced start)
    (storage : Storage start lost (front ++ chain :: back) file.volume)
    (tracks : Tracks start lost chain file) (ofs : Nat) (small : ofs < 2 ^ 32) :
    ∃ after grown, fLseek file ofs = .ok (.ok, after) ∧
      Sought start lost front back file (if file.fp.faWrite then
          min ofs (clusterSize start * clustersFor start lost (front ++ back))
        else min ofs file.fp.fsize) after (chain ++ grown) ∧
      (grown = [] ∨ file.fp.faWrite = true ∧
        clusterSize start * ((chain ++ grown).length - 1) < after.fp.fptr) := by
  have sized := tracks.backed.sized
  have few := Nat.mul_le_mul_left (clusterSize start)
    (storage_few start lost front back chain file.volume storage)
  generalize askedIs : (if ofs > file.fp.fsize ∧ ¬ file.fp.faWrite then file.fp.fsize else ofs) =
    asked
  have bound : asked ≤ ofs := by
    rw [← askedIs]
    split <;> omega
  have reads : file.fp.faWrite = false → asked = min ofs file.fp.fsize := by
    intro mode
    rw [← askedIs]
    by_cases far : ofs > file.fp.fsize
    · rw [if_pos ⟨far, by simp [mode]⟩]
      omega
    · rw [if_neg (fun both => far both.1)]
      omega
  have goal : (if file.fp.faWrite then
      min ofs (clusterSize start * clustersFor start lost (front ++ back))
      else min ofs file.fp.fsize) =
      min asked (clusterSize start * clustersFor start lost (front ++ back)) := by
    cases mode : file.fp.faWrite with
    | true =>
      rw [if_pos rfl, ← askedIs, if_neg (fun both => both.2 mode)]
    | false =>
      rw [if_neg Bool.false_ne_true, reads mode]
      exact (Nat.min_eq_left (by omega)).symm
  rw [goal, fLseek, validate_ok start lost front back chain file storage tracks.backed]
  dsimp only
  rw [if_neg (by simp [tracks.backed.going]), askedIs]
  by_cases top : asked = 0
  · obtain ⟨after, ended, sought⟩ := seek_end_seeks start lost front back chain file placed
      { file with fp := { file.fp with fptr := 0 } } ⟨calm_refl .., rfl⟩ storage
      ⟨tracks.backed.valid, tracks.backed.going, tracks.backed.started, sized, tracks.backed.filled,
        tracks.backed.coherent, tracks.backed.settled⟩ (Nat.zero_le _)
      (fun positive => absurd positive (Nat.lt_irrefl 0)) 0 (fun off => absurd (Nat.zero_mod _) off)
    refine ⟨after, [], ?_, ?_, Or.inl rfl⟩
    · rw [if_pos top, ended]
    · rw [top, Nat.zero_min, List.append_nil]
      exact sought
  · obtain ⟨after, grown, ran, sought, isGrown⟩ :=
      seek_to_seeks start lost front back chain file placed
      storage tracks asked (Nat.pos_of_ne_zero top) (by omega) (fun mode => by
        rw [reads mode]
        omega)
    refine ⟨after, grown, by rw [if_neg top, ran], sought, ?_⟩
    rw [sought.pointer]
    exact isGrown

/-! ## Truncating -/

/-- The clusters of a file that goes up to a place. The last of them may be used in part. -/
def clustersUpTo (size place : Nat) : Nat := (place + size - 1) / size

/-- A file needs no more clusters up to a place than any that go so far. -/
theorem clusters_up_to_few (size place count : Nat) (positive : 0 < size)
    (within : place ≤ size * count) : clustersUpTo size place ≤ count := by
  rw [clustersUpTo]
  refine Nat.le_of_lt_succ (Nat.div_lt_of_lt_mul ?_)
  rw [Nat.mul_succ]
  omega

/-- The clusters up to a place reach it, and are just enough. Their number counts the one of the
byte in front of the place. -/
theorem clusters_up_to_enough (placed : DataPlaced start) (place : Nat) :
    place ≤ clusterSize start * clustersUpTo (clusterSize start) place ∧
      clustersUpTo (clusterSize start) place =
        if place = 0 then 0 else (place - 1) / clusterSize start + 1 := by
  have positive := cluster_size_pos start placed
  have form : clustersUpTo (clusterSize start) place =
      if place = 0 then 0 else (place - 1) / clusterSize start + 1 := by
    rw [clustersUpTo]
    split
    · rename_i isZero
      rw [isZero, Nat.zero_add]
      exact Nat.div_eq_of_lt (by omega)
    · have split : place + clusterSize start - 1 = place - 1 + clusterSize start := by omega
      rw [split, Nat.add_div_right _ positive]
  refine ⟨?_, form⟩
  rw [form]
  split
  · omega
  · have next := Nat.lt_mul_div_succ (place - 1) positive
    omega

/-- The part of `f_truncate` that gives back the clusters behind the pointer. The chain keeps the
clusters up to the pointer. -/
theorem cut_keeps (placed : DataPlaced start)
    (storage : Storage start lost (front ++ chain :: back) file.volume)
    (tracks : Tracks start lost chain file) (longer : file.fp.fptr < file.fp.fsize) :
    ∃ volume, file.cut = .ok (.ok, ⟨volume, { file.fp with
        fsize := file.fp.fptr, faWritten := true,
        sclust := (chain.take (clustersUpTo (clusterSize start) file.fp.fptr)).headD 0 }⟩) ∧
      Storage start lost
        (front ++ chain.take (clustersUpTo (clusterSize start) file.fp.fptr) :: back) volume ∧
      Calm start lost file.volume volume := by
  have started := tracks.backed.started
  have sized := tracks.backed.sized
  have upTo := (clusters_up_to_enough start placed file.fp.fptr).2
  cases chain with
  | nil =>
    rw [List.length_nil, Nat.mul_zero] at sized
    omega
  | cons first rest =>
    rw [List.headD_cons] at started
    by_cases top : file.fp.fptr = 0
    · obtain ⟨after, removed, kept, consistent⟩ := remove_chain_releases file.volume lost front back
        first rest storage.consistent
      obtain ⟨newStorage, calm⟩ :=
        kept_storage start lost placed _ _ _ after storage kept consistent
      rw [if_pos top] at upTo
      rw [upTo, List.take_zero]
      refine ⟨after, ?_, newStorage, calm⟩
      rw [OpenFile.cut, if_pos top, started, removed]
      rfl
    · have current := tracks.current (Nat.pos_of_ne_zero top)
      have split := chain_split _ _ _ current
      obtain ⟨inside, isCluster⟩ := List.getElem?_eq_some_iff.mp current
      obtain ⟨after, truncated, kept, consistent⟩ :=
        truncate_chain_cuts file.volume lost front back _ _
        file.fp.clust (split ▸ storage.consistent)
      rw [if_neg top] at upTo
      have shorter : (first :: rest).take ((file.fp.fptr - 1) / clusterSize start) ++
          [file.fp.clust] = (first :: rest).take
          (clustersUpTo (clusterSize start) file.fp.fptr) := by
        rw [upTo, List.take_succ_eq_append_getElem inside, isCluster]
      rw [shorter] at consistent
      obtain ⟨newStorage, calm⟩ :=
        kept_storage start lost placed _ _ _ after storage kept consistent
      refine ⟨after, ?_, newStorage, calm⟩
      rw [OpenFile.cut, if_neg top, truncated, upTo, List.take_succ_cons, List.headD_cons,
        ← started]
      rfl

/-- What `f_truncate` leaves: the file ends at the pointer, and its bytes are seen as before. Its
chain is shorter by the clusters behind. -/
structure Truncated (after : OpenFile) (changed : List Nat) : Prop where
  served : Served start lost front back file after changed
  tracks : Tracks start lost changed after
  pointer : after.fp.fptr = file.fp.fptr
  size : after.fp.fsize = min file.fp.fsize file.fp.fptr
  same : SameOpen file.fp after.fp
  seen : ∀ number, Available start lost number →
    after.cache.view number = file.cache.view number
  marked : after.fp.faWritten = (file.fp.faWritten || decide (file.fp.fptr < file.fp.fsize))
  calmer : after.fp.faDirty = true → file.fp.faDirty = true

/-- `f_truncate` cuts the file at the pointer. A file that does not go past its pointer stays as
it is. -/
theorem f_truncate_cuts (placed : DataPlaced start)
    (storage : Storage start lost (front ++ chain :: back) file.volume)
    (tracks : Tracks start lost chain file) (writable : file.fp.faWrite = true) :
    ∃ after, fTruncate file = .ok (.ok, after) ∧
      Truncated start lost front back file after (if file.fp.fsize > file.fp.fptr then
        chain.take (clustersUpTo (clusterSize start) file.fp.fptr) else chain) := by
  have backed := tracks.backed
  rw [fTruncate, validate_ok start lost front back chain file storage backed]
  dsimp only
  rw [if_neg (by simp [backed.going]), if_neg (by simp [writable])]
  by_cases longer : file.fp.fsize > file.fp.fptr
  · obtain ⟨volume, cut, newStorage, calm⟩ :=
      cut_keeps start lost front back chain file placed storage tracks longer
    obtain ⟨enough, upTo⟩ := clusters_up_to_enough start placed file.fp.fptr
    have sized := backed.sized
    have positive := cluster_size_pos start placed
    have few := clusters_up_to_few _ file.fp.fptr chain.length positive (by omega)
    have length : (chain.take (clustersUpTo (clusterSize start) file.fp.fptr)).length =
        clustersUpTo (clusterSize start) file.fp.fptr := List.length_take_of_le few
    rw [if_pos longer, if_pos longer, cut, ok_bind]
    dsimp only
    rw [if_neg (not_not_intro rfl)]
    have newBacked : Backed start lost (chain.take (clustersUpTo (clusterSize start) file.fp.fptr))
        ⟨volume, { file.fp with
          fsize := file.fp.fptr, faWritten := true,
          sclust := (chain.take (clustersUpTo (clusterSize start) file.fp.fptr)).headD 0 }⟩ :=
      ⟨backed.valid, backed.going, rfl, by rw [length]; exact enough, backed.filled,
        data_coherent start lost chain file volume calm.data backed, backed.settled⟩
    refine ⟨_, rfl, served_calm start lost front back file _ _ newStorage newBacked calm rfl,
      ⟨newBacked, by rw [length]; exact enough, fun nonzero => ?_, fun off => ?_⟩, rfl, ?_, rfl,
      data_view start lost file volume calm.data,
      by rw [decide_eq_true longer, Bool.or_true], id⟩
    · have last := upTo.trans (if_neg (Nat.pos_iff_ne_zero.mp nonzero))
      rw [List.getElem?_take_of_lt (by rw [last]; exact Nat.lt_succ_self _)]
      exact tracks.current nonzero
    · have inside : file.fp.fptr <
          clusterSize start * clustersUpTo (clusterSize start) file.fp.fptr := by
        refine Nat.lt_of_le_of_ne enough (fun ended => off ?_)
        show file.fp.fptr % sectorSize = 0
        rw [ended, clusterSize, Nat.mul_right_comm, Nat.mul_mod_left]
      have same := data_sector_append start
        (chain.take (clustersUpTo (clusterSize start) file.fp.fptr))
        (chain.drop (clustersUpTo (clusterSize start) file.fp.fptr)) _
        (byte_block start (chain.take _) file.fp.fptr (by rw [length]; exact inside))
      rw [List.take_append_drop] at same
      exact (tracks.held off).trans same
    · exact (Nat.min_eq_right longer.le).symm
  · rw [if_neg longer, if_neg longer]
    exact ⟨file, rfl, served_calm start lost front back file _ chain storage backed (calm_refl ..)
      rfl, tracks, rfl, by omega, rfl, fun _ _ => rfl,
      by rw [decide_eq_false longer, Bool.or_false], id⟩

end Seeks

end EffiLib.FatFs
