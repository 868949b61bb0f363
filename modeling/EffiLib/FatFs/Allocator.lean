import EffiLib.FatFs.ChainRuns

/-!
# The allocator of clusters

What the FAT is for: each file owns clusters, in order; a file grows by one that nobody owns,
it gives back all of its clusters or those behind one of them, and the number of clusters
that nobody owns can be asked for. The functions on the FAT do just that in any run of
requests.
-/

namespace EffiLib.FatFs

open Buffers ChainTable LittleEndian

/-- What is asked of the FAT: to stretch a file by a cluster, to remove it, to keep its first
clusters, to count the free clusters, or to look at a sector in between. -/
inductive FatRequest where
  | grow (file : Nat)
  | remove (file : Nat)
  | truncate (file count : Nat)
  | getFree
  | look (sector : Nat)

/-- What is answered: the cluster that `create_chain` names, the code of a call that has no more to
say, or the code of `f_getfree` with the number it counted. -/
inductive FatReply where
  | cluster (clst : Nat)
  | code (res : FResult)
  | counted (res : FResult) (nclst : Nat)
deriving DecidableEq

/-- A volume and the clusters that its files own. The lists are what the files would know, not
what is stored. -/
structure Owned where
  volume : Volume
  files : List (List Nat)

/-- The clusters of a file. A file that is not there owns none. -/
def Owned.chain (owned : Owned) (file : Nat) : List Nat := owned.files.getD file []

/-- The files behind a call that was to leave one of them with this chain: an error leaves them.
The answer tells the caller whether the chain is as it asked. -/
def Owned.noted (owned : Owned) (file : Nat) (chain : List Nat) (answer : FResult × Volume) :
    FatReply × Owned :=
  let (res, volume) := answer
  (.code res, ⟨volume, if res = .ok then owned.files.set file chain else owned.files⟩)

/-- A request, with its answer. The files are noted from the answers alone. A file that is
stretched hands over its last cluster, or zero if it has none. One without clusters is removed and
cut without a call, as `f_truncate` and `f_unlink` do it. -/
def Owned.serve (owned : Owned) : FatRequest → Run (FatReply × Owned)
  | .grow file => do
    let (clst, volume) ← createChain owned.volume ((owned.chain file).getLastD 0)
    let grown := 2 ≤ clst ∧ clst < volume.fs.nFatent
    .ok (.cluster clst, ⟨volume,
      if grown then owned.files.set file (owned.chain file ++ [clst]) else owned.files⟩)
  | .remove file =>
    match owned.chain file with
    | [] => .ok (.code .ok, owned)
    | first :: _ => do .ok (owned.noted file [] (← removeChain owned.volume first))
  | .truncate file count =>
    match owned.chain file, count with
    | [], _ => .ok (.code .ok, owned)
    | first :: _, 0 => do .ok (owned.noted file [] (← removeChain owned.volume first))
    | chain, count => do
      .ok (owned.noted file (chain.take count)
        (← truncateChain owned.volume ((chain.take count).getLastD 0)))
  | .getFree =>
    let (res, count, volume) := fGetfree owned.volume
    .ok (.counted res count, ⟨volume, owned.files⟩)
  | .look sector =>
    let (res, volume) := moveWindow owned.volume sector
    .ok (.code res, ⟨volume, owned.files⟩)

/-- The requests that callers make: of one of so many files, and of a sector of the disk. Sector
zero is not looked at: the window takes its number as a request to write back alone. -/
def FatRequest.Asked (total : Nat) : FatRequest → Prop
  | .grow file => file < total
  | .remove file => file < total
  | .truncate file _ => file < total
  | .getFree => True
  | .look sector => 0 < sector ∧ sector < sectorCount

/-- A cluster that no file owns and that was not lost before. The abstract allocator may give out
any of them. -/
def Unowned (nFatent : Nat) (lost : List Nat) (files : List (List Nat)) (clst : Nat) : Prop :=
  (2 ≤ clst ∧ clst < nFatent) ∧ clst ∉ files.flatten ∧ clst ∉ lost

/-- The abstract allocator: a request, its answer, and the files behind it. Only a stretch can
fail, with the answer zero, and only where no cluster is left. -/
def Allocates (nFatent : Nat) (lost : List Nat) (files : List (List Nat)) (reply : FatReply)
    (after : List (List Nat)) : FatRequest → Prop
  | .grow file =>
    reply = .cluster 0 ∧ (∀ clst, ¬ Unowned nFatent lost files clst) ∧ after = files ∨
      ∃ clst, reply = .cluster clst ∧ Unowned nFatent lost files clst ∧
        after = files.set file (files.getD file [] ++ [clst])
  | .remove file => reply = .code .ok ∧ after = files.set file []
  | .truncate file count =>
    reply = .code .ok ∧ after = files.set file ((files.getD file []).take count)
  | .getFree => (∃ free : Finset Nat, (∀ clst, clst ∈ free ↔ Unowned nFatent lost files clst) ∧
      reply = .counted .ok free.card) ∧ after = files
  | .look _ => reply = .code .ok ∧ after = files

/-- A run of requests. A fault would end it. -/
def Owned.serveAll (owned : Owned) : List FatRequest → Run (List FatReply × Owned)
  | [] => .ok ([], owned)
  | request :: rest => do
    let (reply, next) ← owned.serve request
    let (replies, final) ← next.serveAll rest
    .ok (reply :: replies, final)

/-- A run of the abstract allocator. Each request starts from the files that the last one left. -/
inductive AllocatesAll (nFatent : Nat) (lost : List Nat) :
    List (List Nat) → List FatRequest → List FatReply → List (List Nat) → Prop where
  | nil (files : List (List Nat)) : AllocatesAll nFatent lost files [] [] files
  | cons (files next final : List (List Nat)) (request : FatRequest) (rest : List FatRequest)
      (reply : FatReply) (replies : List FatReply)
      (first : Allocates nFatent lost files reply next request)
      (others : AllocatesAll nFatent lost next rest replies final) :
      AllocatesAll nFatent lost files (request :: rest) (reply :: replies) final

/-- The files around one of them. The call works on that one, and the others are in front of it
and behind it. -/
theorem files_split (files : List (List Nat)) (file : Nat) (there : file < files.length) :
    files = files.take file ++ files.getD file [] :: files.drop (file + 1) ∧
      ∀ chain, files.set file chain = files.take file ++ chain :: files.drop (file + 1) := by
  constructor
  · have element : files.getD file [] = files[file] := by
      rw [List.getD_eq_getElem?_getD, List.getElem?_eq_getElem there, Option.getD_some]
    rw [element, ← List.drop_eq_getElem_cons there, List.take_append_drop]
  · intro chain
    rw [List.set_eq_take_append_cons_drop, if_pos there]

/-- The free clusters of a consistent volume are those that nobody owns. So the allocator of the
code may take any entry that is zero. -/
theorem unowned_free (volume : Volume) (lost : List Nat) (files : List (List Nat))
    (consistent : Consistent volume lost files) (clst : Nat) :
    Unowned volume.fs.nFatent lost files clst ↔
      InRange volume.fs clst ∧ volume.link clst = 0 := by
  rw [Unowned, InRange]
  constructor
  · rintro ⟨⟨above, below⟩, notOwned⟩
    exact ⟨⟨above, below⟩, (consistent.holds.used clst above below).mpr notOwned⟩
  · rintro ⟨⟨above, below⟩, free⟩
    exact ⟨⟨above, below⟩, (consistent.holds.used clst above below).mp free⟩

/-- Stretching a file answers with a cluster that nobody owned, or there is none. The code tells a
full volume by its answer. -/
theorem serve_grow (owned : Owned) (lost : List Nat) (file : Nat)
    (consistent : Consistent owned.volume lost owned.files) (there : file < owned.files.length) :
    ∃ reply next, owned.serve (.grow file) = .ok (reply, next) ∧
      next.volume.fs.nFatent = owned.volume.fs.nFatent ∧
      Consistent next.volume lost next.files ∧
      Allocates owned.volume.fs.nFatent lost owned.files reply next.files (.grow file) := by
  obtain ⟨split, replaced⟩ := files_split owned.files file there
  have chain : owned.chain file = owned.files.getD file [] := rfl
  have created : ∃ reply after,
      createChain owned.volume ((owned.chain file).getLastD 0) = .ok (reply, after) ∧
        Kept owned.volume after ∧
        (reply = 0 ∧ (∀ clst, InRange owned.volume.fs clst → owned.volume.link clst ≠ 0) ∧
            Consistent after lost owned.files ∨
          InRange owned.volume.fs reply ∧ owned.volume.link reply = 0 ∧
            Consistent after lost (owned.files.set file (owned.chain file ++ [reply]))) := by
    rcases List.eq_nil_or_concat (owned.chain file) with empty | ⟨start, last, filled⟩
    · rw [chain] at empty
      rw [empty] at split
      obtain ⟨reply, after, ran, kept, result⟩ := create_chain_start owned.volume lost
        (owned.files.take file) (owned.files.drop (file + 1)) (split ▸ consistent)
      rw [← split, ← replaced] at result
      rw [chain, empty]
      exact ⟨reply, after, ran, kept, result⟩
    · rw [List.concat_eq_append] at filled
      rw [chain] at filled
      rw [filled] at split
      obtain ⟨reply, after, ran, kept, result⟩ := create_chain_stretch owned.volume lost
        (owned.files.take file) (owned.files.drop (file + 1)) start last (split ▸ consistent)
      rw [← split, ← replaced] at result
      have named : (start ++ [last]).getLastD 0 = last := by simp
      rw [chain, filled, named]
      refine ⟨reply, after, ran, kept, ?_⟩
      rw [List.append_assoc]
      exact result
  obtain ⟨reply, after, ran, kept, result⟩ := created
  have count : after.fs.nFatent = owned.volume.fs.nFatent := by rw [kept.layout]
  have free := unowned_free owned.volume lost owned.files consistent
  refine ⟨.cluster reply, _, by rw [Owned.serve, ran, ok_bind], count, ?_, ?_⟩
  · rcases result with ⟨rfl, _, still⟩ | ⟨inRange, _, grown⟩
    · dsimp only
      rw [if_neg (fun both => absurd both.1 (by decide))]
      exact still
    · dsimp only
      rw [if_pos ⟨inRange.1, count ▸ inRange.2⟩]
      exact grown
  · rcases result with ⟨rfl, full, _⟩ | ⟨inRange, isFree, _⟩
    · have unchanged : ¬ (2 ≤ 0 ∧ 0 < after.fs.nFatent) := fun both => absurd both.1 (by decide)
      refine Or.inl ⟨rfl, fun clst unowned => ?_, by dsimp only; rw [if_neg unchanged]⟩
      obtain ⟨inside, isFree⟩ := (free clst).mp unowned
      exact full clst inside isFree
    · have grown : 2 ≤ reply ∧ reply < after.fs.nFatent := ⟨inRange.1, count ▸ inRange.2⟩
      exact Or.inr ⟨reply, rfl, (free reply).mpr ⟨inRange, isFree⟩,
        by dsimp only; rw [if_pos grown]; rfl⟩

/-- Removing a file leaves it without clusters. A file without clusters is not asked to be removed
from the FAT. -/
theorem serve_remove (owned : Owned) (lost : List Nat) (file : Nat)
    (consistent : Consistent owned.volume lost owned.files) (there : file < owned.files.length) :
    ∃ reply next, owned.serve (.remove file) = .ok (reply, next) ∧
      next.volume.fs.nFatent = owned.volume.fs.nFatent ∧
      Consistent next.volume lost next.files ∧
      Allocates owned.volume.fs.nFatent lost owned.files reply next.files (.remove file) := by
  obtain ⟨split, replaced⟩ := files_split owned.files file there
  have chain : owned.chain file = owned.files.getD file [] := rfl
  cases cells : owned.chain file with
  | nil =>
    rw [← chain, cells, ← replaced] at split
    exact ⟨.code .ok, owned, by simp only [Owned.serve, cells], rfl, consistent, rfl, split⟩
  | cons first rest =>
    rw [← chain, cells] at split
    obtain ⟨after, ran, kept, released⟩ := remove_chain_releases owned.volume lost
      (owned.files.take file) (owned.files.drop (file + 1)) first rest (split ▸ consistent)
    rw [← replaced] at released
    refine ⟨.code .ok, ⟨after, owned.files.set file []⟩, ?_, ?_, released, rfl, rfl⟩
    · simp only [Owned.serve, cells, ran, ok_bind, Owned.noted, if_true]
    · rw [kept.layout]

/-- Truncating a file leaves its first clusters. What was behind them is free again. -/
theorem serve_truncate (owned : Owned) (lost : List Nat) (file keep : Nat)
    (consistent : Consistent owned.volume lost owned.files) (there : file < owned.files.length) :
    ∃ reply next, owned.serve (.truncate file keep) = .ok (reply, next) ∧
      next.volume.fs.nFatent = owned.volume.fs.nFatent ∧
      Consistent next.volume lost next.files ∧
      Allocates owned.volume.fs.nFatent lost owned.files reply next.files
        (.truncate file keep) := by
  obtain ⟨split, replaced⟩ := files_split owned.files file there
  have chain : owned.chain file = owned.files.getD file [] := rfl
  cases cells : owned.chain file with
  | nil =>
    rw [← chain, cells, ← replaced] at split
    refine ⟨.code .ok, owned, by simp only [Owned.serve, cells], rfl, consistent, rfl, ?_⟩
    rw [← chain, cells, List.take_nil]
    exact split
  | cons first rest =>
    rw [← chain, cells] at split
    cases keep with
    | zero =>
      obtain ⟨after, ran, kept, released⟩ := remove_chain_releases owned.volume lost
        (owned.files.take file) (owned.files.drop (file + 1)) first rest (split ▸ consistent)
      rw [← replaced] at released
      refine ⟨.code .ok, ⟨after, owned.files.set file []⟩, ?_, ?_, released, rfl, rfl⟩
      · simp only [Owned.serve, cells, ran, ok_bind, Owned.noted, if_true]
      · rw [kept.layout]
    | succ keep =>
      rcases List.eq_nil_or_concat ((first :: rest).take (keep + 1)) with
        empty | ⟨start, clst, kept⟩
      · exact absurd empty (by simp)
      · rw [List.concat_eq_append] at kept
        have around : first :: rest = start ++ clst :: (first :: rest).drop (keep + 1) := by
          rw [List.append_cons, ← kept, List.take_append_drop]
        rw [around] at split
        obtain ⟨after, ran, same, cut⟩ := truncate_chain_cuts owned.volume lost
          (owned.files.take file) (owned.files.drop (file + 1)) start _ clst (split ▸ consistent)
        rw [← replaced, ← kept] at cut
        have named : (start ++ [clst]).getLastD 0 = clst := by simp
        refine ⟨.code .ok, ⟨after, owned.files.set file ((first :: rest).take (keep + 1))⟩, ?_, ?_,
          cut, rfl, ?_⟩
        · simp only [Owned.serve, cells, kept, named, ran, ok_bind, Owned.noted, if_true]
        · rw [same.layout]
        · rw [← chain, cells]

/-- Each request is answered as by the abstract allocator. Proof: by the kind of the request. -/
theorem serve_allocates (owned : Owned) (lost : List Nat) (request : FatRequest)
    (consistent : Consistent owned.volume lost owned.files)
    (asked : request.Asked owned.files.length) :
    ∃ reply next, owned.serve request = .ok (reply, next) ∧
      next.volume.fs.nFatent = owned.volume.fs.nFatent ∧
      Consistent next.volume lost next.files ∧
      Allocates owned.volume.fs.nFatent lost owned.files reply next.files request := by
  cases request with
  | grow file => exact serve_grow owned lost file consistent asked
  | remove file => exact serve_remove owned lost file consistent asked
  | truncate file count => exact serve_truncate owned lost file count consistent asked
  | getFree =>
    obtain ⟨after, counted, kept, still⟩ :=
      f_getfree_counts owned.volume lost owned.files consistent
    refine ⟨_, ⟨after, owned.files⟩, by rw [Owned.serve, counted], ?_, still,
      ⟨freeCells owned.volume.link 2 owned.volume.fs.nFatent, fun clst => ?_, rfl⟩, rfl⟩
    · rw [kept.layout]
    · rw [unowned_free owned.volume lost owned.files consistent, freeCells, Finset.mem_filter,
        Finset.mem_Ico, InRange]
  | look number =>
    obtain ⟨after, moved, same, _⟩ := move_window_shows owned.volume
      consistent.mounted.sound number asked.1 asked.2
    refine ⟨.code .ok, ⟨after, owned.files⟩, by rw [Owned.serve, moved], ?_,
      consistent_same _ _ _ _ consistent (seen_mounted _ _ consistent.mounted same)
        same.system (seen_link _ _ consistent.mounted same), rfl, rfl⟩
    rw [same.system]

/-- No request makes a file more or less. So the files keep their numbers. -/
theorem allocates_length (nFatent : Nat) (lost : List Nat) (files after : List (List Nat))
    (reply : FatReply) (request : FatRequest)
    (allocates : Allocates nFatent lost files reply after request) :
    after.length = files.length := by
  cases request with
  | grow file =>
    rcases allocates with ⟨_, _, rfl⟩ | ⟨_, _, _, rfl⟩
    · rfl
    · exact List.length_set
  | remove file => exact allocates.2 ▸ List.length_set
  | truncate file count => exact allocates.2 ▸ List.length_set
  | getFree => exact congrArg List.length allocates.2
  | look number => exact congrArg List.length allocates.2

/-- In any run the functions on the FAT are the abstract allocator, and keep the volume
consistent. Proof: by induction on the requests, with a consistent volume as the invariant. -/
theorem chains_allocate (owned : Owned) (lost : List Nat) (requests : List FatRequest)
    (consistent : Consistent owned.volume lost owned.files)
    (asked : ∀ request ∈ requests, request.Asked owned.files.length) :
    ∃ replies final, owned.serveAll requests = .ok (replies, final) ∧
      Consistent final.volume lost final.files ∧
      AllocatesAll owned.volume.fs.nFatent lost owned.files requests replies final.files := by
  induction requests generalizing owned with
  | nil => exact ⟨[], owned, rfl, consistent, .nil _⟩
  | cons request rest inductionHypothesis =>
    obtain ⟨reply, next, served, count, nextConsistent, allocates⟩ :=
      serve_allocates owned lost request consistent (asked request List.mem_cons_self)
    have total := allocates_length _ _ _ _ _ _ allocates
    obtain ⟨replies, final, ran, finalConsistent, others⟩ :=
      inductionHypothesis next nextConsistent (fun other member => by
        rw [total]
        exact asked other (List.mem_cons_of_mem _ member))
    refine ⟨reply :: replies, final, ?_, finalConsistent,
      .cons _ next.files _ _ _ _ _ allocates (count ▸ others)⟩
    rw [Owned.serveAll, served, ok_bind]
    dsimp only
    rw [ran, ok_bind]

/-- The entries of an empty FAT12: the two marks, and no more. All clusters are free. -/
def emptyFat : List u8 := fatStart [0xF8, 0xFF, 0xFF]

/-- A small volume without clusters in use holds two empty files. So the runs of requests have a
volume to start from. -/
theorem empty_fat_consistent : Consistent (smallVolume emptyFat) [] [[], []] := by
  have free : ∀ clst, 2 ≤ clst → clst < 6 → (smallVolume emptyFat).link clst = 0 := by
    intro clst above below
    rw [small_volume_link emptyFat clst below]
    interval_cases clst <;> decide
  have marks : (smallVolume emptyFat).link 0 ≠ 0 ∧ (smallVolume emptyFat).link 1 ≠ 0 := by
    rw [small_volume_link emptyFat 0 (by decide), small_volume_link emptyFat 1 (by decide)]
    decide
  refine ⟨small_volume_mounted _ (fat_start_length _ (by decide)), ⟨?_, ?_, ?_, ?_, ?_⟩,
    Or.inl rfl, marks⟩
  · intro chain member
    have empty : chain = [] := by simpa using member
    rw [empty]
    exact ⟨6, Nat.le_refl 6, rfl⟩
  · exact fun clst member => absurd member (by simp)
  · exact List.nodup_nil
  · exact fun clst above below => iff_of_true (free clst above below) ⟨by simp, by simp⟩
  · exact fun clst above below => Or.inl (free clst above below)

/-- Two files of a small volume grow in turns, one is cut and removed, and the free clusters are
counted. The request for a sector in between moves the window. -/
theorem small_chains_allocate :
    let requests : List FatRequest := [.grow 0, .grow 1, .grow 0, .look 5, .truncate 0 1, .getFree,
      .remove 1, .getFree]
    ∃ replies final, Owned.serveAll ⟨smallVolume emptyFat, [[], []]⟩ requests =
        .ok (replies, final) ∧
      Consistent final.volume [] final.files ∧
      AllocatesAll 6 [] [[], []] requests replies final.files :=
  chains_allocate ⟨smallVolume emptyFat, [[], []]⟩ [] [.grow 0, .grow 1, .grow 0, .look 5,
    .truncate 0 1, .getFree, .remove 1, .getFree] empty_fat_consistent (by
      have first : 0 < [([] : List Nat), []].length := by decide
      have second : 1 < [([] : List Nat), []].length := by decide
      simp only [List.forall_mem_cons, FatRequest.Asked]
      exact ⟨first, second, first, ⟨by decide, by decide⟩, first, trivial, second, trivial,
        fun _ member => absurd member List.not_mem_nil⟩)

end EffiLib.FatFs
