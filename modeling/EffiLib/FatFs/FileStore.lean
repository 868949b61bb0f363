import EffiLib.FatFs.Allocator
import EffiLib.FatFs.FileRequests

/-!
# The open files of a volume

Any number of files may be open on a volume at once, and their requests may come in any order.
Each is then a sequence of bytes of its own: no request on one file shows in another, and the
files share nothing but the free clusters. A file that was synchronized is found with the same
bytes when the disk is mounted again.
-/

namespace EffiLib.FatFs

open Buffers Sectors BlockCache PlacedBytes ChainTable LittleEndian

/-- The open files of a volume. They share the window and the disk. -/
structure OpenFiles where
  volume : Volume
  fils : List FIL

/-- A request on one of them. A file that was not opened answers so. -/
def OpenFiles.serve (files : OpenFiles) (index : Nat) (request : FileRequest) :
    Run (FileReply × OpenFiles) :=
  match files.fils[index]? with
  | some fp => do
    let (reply, after) ← OpenFile.serve ⟨files.volume, fp⟩ request
    .ok (reply, ⟨after.volume, files.fils.set index after.fp⟩)
  | none => .ok (⟨.invalidObject, [], 0⟩, files)

/-- A run of requests. A fault would end it. -/
def OpenFiles.serveAll (files : OpenFiles) : List (Nat × FileRequest) →
    Run (List FileReply × OpenFiles)
  | [] => .ok ([], files)
  | (index, request) :: rest => do
    let (reply, next) ← files.serve index request
    let (replies, final) ← next.serveAll rest
    .ok (reply :: replies, final)

/-- Each request of a run is one that its file can be asked at that time. What a file may be asked
depends on where its pointer is. -/
def OpenFiles.Allows (files : OpenFiles) : List (Nat × FileRequest) → Prop
  | [] => True
  | (index, request) :: rest =>
    (∀ fp, files.fils[index]? = some fp → fp.Allows request) ∧
      ∀ reply next, files.serve index request = .ok (reply, next) → next.Allows rest

/-- The clusters that one of the sequences may have, of so many. It is what the other sequences
have left. -/
def roomFor (total : Nat) (stored : List ByteFile) (index : Nat) : Nat :=
  total - ((stored.eraseIdx index).map ByteFile.clusters).sum

/-- A request on one of the sequences, which leaves the others. The clusters of the others bound
what it may gain. -/
def StoreAnswers (cluster total : Nat) (stored : List ByteFile) (index : Nat)
    (request : FileRequest) (reply : FileReply) (after : List ByteFile) : Prop :=
  match stored[index]? with
  | some file => ∃ changed,
    file.Answers cluster (roomFor total stored index) request reply changed ∧
      after = stored.set index changed
  | none => reply = ⟨.invalidObject, [], 0⟩ ∧ after = stored

/-- A run of requests on the sequences. Each request starts from the sequences that the last one
left. -/
inductive StoreRuns (cluster total : Nat) :
    List ByteFile → List (Nat × FileRequest) → List FileReply → List ByteFile → Prop where
  | nil (stored : List ByteFile) : StoreRuns cluster total stored [] [] stored
  | cons (stored next final : List ByteFile) (index : Nat) (request : FileRequest)
      (rest : List (Nat × FileRequest)) (reply : FileReply) (replies : List FileReply)
      (first : StoreAnswers cluster total stored index request reply next)
      (others : StoreRuns cluster total next rest replies final) :
      StoreRuns cluster total stored ((index, request) :: rest) (reply :: replies) final

/-- The directory entries of two files are different ones. They may be in one sector. -/
def EntriesApart (fp other : FIL) : Prop :=
  fp.dirSect ≠ other.dirSect ∨ fp.dirPtr + 32 ≤ other.dirPtr ∨ other.dirPtr + 32 ≤ fp.dirPtr

/-- Each open file has a chain of clusters of its own, and holds one of the sequences. It is the
invariant of a run of requests. -/
structure FilesHold (start : FATFS) (lost : List Nat) (chains : List (List Nat))
    (files : OpenFiles) (stored : List ByteFile) : Prop where
  storage : Storage start lost chains files.volume
  counted : chains.length = files.fils.length
  clusters : stored.map ByteFile.clusters = chains.map List.length
  each : ∀ (index : Nat) fp chain file, files.fils[index]? = some fp → chains[index]? = some chain →
    stored[index]? = some file → FileHolds start lost chain ⟨files.volume, fp⟩ file
  apart : ∀ (index other : Nat) fp fil, index ≠ other → files.fils[index]? = some fp →
    files.fils[other]? = some fil → EntriesApart fp fil

/-- What is left of a file that was asked for nothing: its object, its clusters with the data in
them, and its directory entry. -/
structure Untouched (start : FATFS) (chains changed : List (List Nat)) (files after : OpenFiles)
    (index : Nat) : Prop where
  object : after.fils[index]? = files.fils[index]?
  chain : changed[index]? = chains[index]?
  data : ∀ chain, chains[index]? = some chain → ∀ number, Owns start chain number →
    after.volume.cache.store number = files.volume.cache.store number
  entry : ∀ fp, files.fils[index]? = some fp → ∀ place, fp.dirPtr ≤ place →
    place < fp.dirPtr + 32 → byteAt (after.volume.cache.view fp.dirSect) place =
      byteAt (files.volume.cache.view fp.dirSect) place

/-- Where nothing was done, every file is untouched. The clusters and the bytes are then the
same. -/
theorem untouched_refl (start : FATFS) (chains : List (List Nat)) (files : OpenFiles)
    (index : Nat) : Untouched start chains chains files files index :=
  ⟨rfl, rfl, fun _ _ _ _ => rfl, fun _ _ _ _ _ => rfl⟩

/-- What two stretches of a run leave untouched, both leave. So a run leaves what each of its
requests leaves. -/
theorem untouched_trans (start : FATFS) (chains between changed : List (List Nat))
    (files middle after : OpenFiles) (index : Nat)
    (first : Untouched start chains between files middle index)
    (second : Untouched start between changed middle after index) :
    Untouched start chains changed files after index := by
  refine ⟨second.object.trans first.object, second.chain.trans first.chain,
    fun chain isChain number owned => ?_, fun fp isFil place late early => ?_⟩
  · rw [second.data chain (first.chain.trans isChain) number owned]
    exact first.data chain isChain number owned
  · rw [second.entry fp (first.object.trans isFil) place late early]
    exact first.entry fp isFil place late early

section Store

variable (start : FATFS) (lost : List Nat)

/-- A step on another file leaves what a file holds. Data and entry of the file are what it
depends on. -/
theorem other_holds (placed : DataPlaced start) (front back : List (List Nat)) (chain : List Nat)
    (volume after : Volume) (fp : FIL) (file : ByteFile)
    (storage : Storage start lost (front ++ chain :: back) volume)
    (holds : FileHolds start lost chain ⟨volume, fp⟩ file)
    (data : ∀ number, Available start lost number → Owns start chain number →
      after.cache.store number = volume.cache.store number)
    (entry : ∀ place, fp.dirPtr ≤ place → place < fp.dirPtr + 32 →
      byteAt (after.cache.view fp.dirSect) place = byteAt (volume.cache.view fp.dirSect) place) :
    FileHolds start lost chain ⟨after, fp⟩ file := by
  have tracks := holds.tracks
  have backed := tracks.backed
  have sized := backed.sized
  obtain ⟨_, inRange, kept, _⟩ := storage_cells start lost front back chain volume storage
  have coherent : Coherent noCopies (OpenFile.cache ⟨after, fp⟩) := by
    refine ⟨fun number held clean => ?_, backed.coherent.owned,
      fun number _ copy member => absurd member List.not_mem_nil⟩
    obtain ⟨shown, nonzero⟩ := held_dsect ⟨volume, fp⟩ number held
    have owned := holds.own.resolve_left nonzero
    have available := backed.settled.resolve_left nonzero
    rw [shown] at owned available
    exact (backed.coherent.clean number held clean).trans (data number available owned).symm
  have newBacked : Backed start lost chain ⟨after, fp⟩ :=
    ⟨backed.valid, backed.going, backed.started, sized, backed.filled, coherent, backed.settled⟩
  refine ⟨⟨newBacked, tracks.within, tracks.current, tracks.held⟩, holds.own, ?_, holds.position,
    holds.reached, holds.clusters, holds.readable, holds.writable, holds.unsaved,
    holds.entryPlaced, holds.noted,
    fun unwritten => entry_holds_congr _ _ fp entry (holds.recorded unwritten)⟩
  rw [holds.bytes]
  refine piece_congr _ _ _ _ (fun index _ below => ?_)
  have block := byte_block start chain index (show index < _ by dsimp only at sized below; omega)
  have owned := (data_sector_owned start placed chain inRange _ block).1
  have available := data_sector_available start placed chain inRange _ block lost kept
  rw [OpenFile.byte, OpenFile.byte, element, element, Cache.view, Cache.view]
  exact congrArg (fun block : List u8 => block.getD (index % sectorSize) default)
    (if_congr Iff.rfl rfl (data _ available owned)).symm

/-- The clusters that a file may have, out of those that the other files have. The abstract files
count their clusters as the chains do. -/
theorem room_for_clusters (chains : List (List Nat)) (stored : List ByteFile) (index : Nat)
    (clusters : stored.map ByteFile.clusters = chains.map List.length) :
    roomFor (clustersFor start lost []) stored index =
      clustersFor start lost (chains.take index ++ chains.drop (index + 1)) := by
  have others : (stored.eraseIdx index).map ByteFile.clusters =
      (chains.take index ++ chains.drop (index + 1)).map List.length := by
    rw [← List.eraseIdx_eq_take_drop_succ, ← List.eraseIdx_map, clusters, List.eraseIdx_map]
  rw [roomFor, others, clustersFor, clustersFor, List.length_flatten, List.length_flatten]
  simp

/-- The chains around one of them. A request works on that one. -/
theorem chains_around (chains : List (List Nat)) (index : Nat) (chain : List Nat)
    (there : chains[index]? = some chain) :
    chains = chains.take index ++ chain :: chains.drop (index + 1) := by
  obtain ⟨inside, _⟩ := List.getElem?_eq_some_iff.mp there
  have split := (files_split chains index inside).1
  rwa [List.getD_eq_getElem?_getD, there, Option.getD_some] at split

section Step

variable (placed : DataPlaced start) (chains : List (List Nat)) (files : OpenFiles)
  (stored : List ByteFile) (holds : FilesHold start lost chains files stored) (index : Nat)
  (fp : FIL) (chain : List Nat) (file : ByteFile) (there : files.fils[index]? = some fp)
  (chainIs : chains[index]? = some chain) (fileIs : stored[index]? = some file) (after : OpenFile)
  (changed : List Nat)
  (steps : Steps start lost (chains.take index) (chains.drop (index + 1)) ⟨files.volume, fp⟩ after
    changed)

include holds there steps

/-- The entries stay apart in a step on one file. A step moves no entry. -/
theorem entries_apart (first second : Nat) (left right : FIL) (different : first ≠ second)
    (leftIs : (files.fils.set index after.fp)[first]? = some left)
    (rightIs : (files.fils.set index after.fp)[second]? = some right) :
    EntriesApart left right := by
  obtain ⟨inside, _⟩ := List.getElem?_eq_some_iff.mp there
  have kept : ∀ (place : Nat) fil, (files.fils.set index after.fp)[place]? = Option.some fil →
      ∃ old, files.fils[place]? = Option.some old ∧ fil.dirSect = old.dirSect ∧
        fil.dirPtr = old.dirPtr := by
    intro place fil isFil
    by_cases same : index = place
    · subst same
      rw [List.getElem?_set_self inside] at isFil
      cases isFil
      exact ⟨fp, there, steps.sector, steps.entry⟩
    · rw [List.getElem?_set_ne same] at isFil
      exact ⟨fil, isFil, rfl, rfl⟩
  obtain ⟨leftOld, leftThere, leftSector, leftEntry⟩ := kept first left leftIs
  obtain ⟨rightOld, rightThere, rightSector, rightEntry⟩ := kept second right rightIs
  rw [EntriesApart, leftSector, leftEntry, rightSector, rightEntry]
  exact holds.apart first second leftOld rightOld different leftThere rightThere

include placed chainIs fileIs

/-- A step on one file leaves the others untouched. Neither their clusters nor their entries
changed, and no byte of them. -/
theorem others_untouched (other : Nat) (different : index ≠ other) :
    Untouched start chains (chains.set index changed) files
      ⟨after.volume, files.fils.set index after.fp⟩ other := by
  have before := holds.each index fp chain file there chainIs fileIs
  have counted := holds.counted
  have lengths : stored.length = chains.length := by
    rw [← List.length_map, holds.clusters, List.length_map]
  have storage := holds.storage
  rw [chains_around chains index chain chainIs] at storage
  refine ⟨List.getElem?_set_ne different, List.getElem?_set_ne different,
    fun chainOther otherChain number owned => ?_, fun fil otherIs place late early => ?_⟩
  · have member : chainOther ∈ chains.take index ++ chains.drop (index + 1) := by
      rw [← List.eraseIdx_eq_take_drop_succ]
      exact List.mem_eraseIdx_iff_getElem?.mpr ⟨other, Ne.symm different, otherChain⟩
    obtain ⟨_, inRange, kept, _⟩ := storage_cells start lost _ _ chainOther _
      (chains_around chains other chainOther otherChain ▸ holds.storage)
    have available : Available start lost number :=
      ⟨owned.1, inRange _ owned.2, kept _ owned.2⟩
    have apart := (storage_cells start lost _ _ chain _ storage).2.2.2 chainOther member
    have apartAfter := (storage_cells start lost _ _ changed _ steps.storage).2.2.2 chainOther
      member
    refine steps.others number available (fun shared => apartAfter _ shared.2 owned.2) ?_
    rcases before.own with unset | own
    · have positive := available_pos start lost _ placed _ holds.storage number available
      intro held
      rw [unset] at held
      omega
    · intro held
      rw [← held] at own
      exact apart _ own.2 owned.2
  · obtain ⟨otherInside, _⟩ := List.getElem?_eq_some_iff.mp otherIs
    have otherHolds := holds.each other fil _ _ otherIs
      (List.getElem?_eq_getElem (by omega : other < chains.length))
      (List.getElem?_eq_getElem (by omega : other < stored.length))
    exact steps.entries fil.dirSect fil.dirPtr otherHolds.entryPlaced
      (holds.apart index other fp fil different there otherIs) place late early

/-- A request to one file leaves what the others hold. They read their bytes from their own
clusters. -/
theorem others_hold (other : Nat) (fil : FIL) (chainOther : List Nat) (fileOther : ByteFile)
    (different : index ≠ other) (otherIs : files.fils[other]? = some fil)
    (otherChain : chains[other]? = some chainOther) (otherFile : stored[other]? = some fileOther) :
    FileHolds start lost chainOther ⟨after.volume, fil⟩ fileOther := by
  have untouched := others_untouched start lost placed chains files stored holds index fp chain
    file there chainIs fileIs after changed steps other different
  exact other_holds start lost placed (chains.take other) (chains.drop (other + 1)) chainOther
    files.volume after.volume fil fileOther
    (chains_around chains other chainOther otherChain ▸ holds.storage)
    (holds.each other fil chainOther fileOther otherIs otherChain otherFile)
    (fun number _ owned => untouched.data chainOther otherChain number owned)
    (untouched.entry fil otherIs)

end Step

/-- A request on one file is answered by its sequence, and the others are left untouched. Proof:
the request is served by its own file, and the step leaves what the others depend on. -/
theorem store_answers (placed : DataPlaced start)
    (reserved : start.fsType = .fat32 → FsiReserved start) (chains : List (List Nat))
    (files : OpenFiles) (stored : List ByteFile) (holds : FilesHold start lost chains files stored)
    (index : Nat) (request : FileRequest)
    (allowed : ∀ fp, files.fils[index]? = some fp → fp.Allows request) :
    ∃ reply next changed storedAfter, files.serve index request = .ok (reply, next) ∧
      FilesHold start lost changed next storedAfter ∧
      StoreAnswers (clusterSize start) (clustersFor start lost []) stored index request reply
        storedAfter ∧
      ∀ other, index ≠ other → Untouched start chains changed files next other := by
  have lengths : stored.length = chains.length := by
    rw [← List.length_map, holds.clusters, List.length_map]
  have counted := holds.counted
  rw [OpenFiles.serve]
  cases there : files.fils[index]? with
  | none =>
    have outside := List.getElem?_eq_none_iff.mp there
    refine ⟨_, files, chains, stored, rfl, holds, ?_,
      fun other _ => untouched_refl start chains files other⟩
    rw [StoreAnswers, List.getElem?_eq_none (by omega)]
    exact ⟨rfl, rfl⟩
  | some fp =>
    obtain ⟨inside, _⟩ := List.getElem?_eq_some_iff.mp there
    obtain ⟨chain, chainIs⟩ : ∃ chain, chains[index]? = some chain :=
      ⟨_, List.getElem?_eq_getElem (by omega)⟩
    obtain ⟨file, fileIs⟩ : ∃ file, stored[index]? = some file :=
      ⟨_, List.getElem?_eq_getElem (by omega)⟩
    have storage := holds.storage
    rw [chains_around chains index chain chainIs] at storage
    have fileHolds := holds.each index fp chain file there chainIs fileIs
    obtain ⟨reply, after, changed, fileAfter, served, steps, holdsAfter, answers⟩ :=
      request_serves start lost _ _ chain ⟨files.volume, fp⟩ file placed storage fileHolds reserved
        request (allowed fp there)
    have newStorage := steps.storage
    rw [← (files_split chains index (by omega)).2 changed] at newStorage
    refine ⟨reply, ⟨after.volume, files.fils.set index after.fp⟩, chains.set index changed,
      stored.set index fileAfter, by dsimp only; rw [served, ok_bind], ⟨newStorage, ?_, ?_,
        fun other fil chainOther fileOther otherIs otherChain otherFile => ?_,
        entries_apart start lost chains files stored holds index fp there after changed steps⟩, ?_,
      others_untouched start lost placed chains files stored holds index fp chain file there chainIs
        fileIs after changed steps⟩
    · rw [List.length_set, List.length_set, counted]
    · rw [List.map_set, List.map_set, holds.clusters, holdsAfter.clusters]
    · by_cases same : index = other
      · subst same
        rw [List.getElem?_set_self (by omega)] at otherIs otherChain otherFile
        cases otherIs
        cases otherChain
        cases otherFile
        exact holdsAfter
      · rw [List.getElem?_set_ne same] at otherIs otherChain otherFile
        exact others_hold start lost placed chains files stored holds index fp chain file there
          chainIs fileIs after changed steps other fil chainOther fileOther same otherIs
          otherChain otherFile
    · rw [StoreAnswers, fileIs]
      refine ⟨fileAfter, ?_, rfl⟩
      rw [room_for_clusters start lost chains stored index holds.clusters]
      exact answers

/-- Through any run of requests the open files of a volume answer as sequences of bytes of their
own, and those that are asked for nothing are untouched. -/
theorem run_answers (placed : DataPlaced start)
    (reserved : start.fsType = .fat32 → FsiReserved start) (chains : List (List Nat))
    (files : OpenFiles) (stored : List ByteFile) (requests : List (Nat × FileRequest))
    (holds : FilesHold start lost chains files stored) (allowed : files.Allows requests) :
    ∃ replies final changed storedAfter, files.serveAll requests = .ok (replies, final) ∧
      FilesHold start lost changed final storedAfter ∧
      StoreRuns (clusterSize start) (clustersFor start lost []) stored requests replies
        storedAfter ∧
      ∀ other, (∀ request ∈ requests, request.1 ≠ other) →
        Untouched start chains changed files final other := by
  induction requests generalizing chains files stored with
  | nil =>
    exact ⟨[], files, chains, stored, rfl, holds, .nil _,
      fun other _ => untouched_refl start chains files other⟩
  | cons request rest inductionHypothesis =>
    obtain ⟨index, request⟩ := request
    obtain ⟨reply, next, changed, middle, served, nextHolds, answers, left⟩ :=
      store_answers start lost placed reserved chains files stored holds index request allowed.1
    obtain ⟨replies, final, finalChains, storedAfter, ran, finalHolds, others, leftLater⟩ :=
      inductionHypothesis changed next middle nextHolds (allowed.2 reply next served)
    refine ⟨reply :: replies, final, finalChains, storedAfter, ?_, finalHolds,
      .cons _ middle _ _ _ _ _ _ answers others, fun other unasked => ?_⟩
    · rw [OpenFiles.serveAll, served, ok_bind]
      dsimp only
      rw [ran, ok_bind]
    · have now := left other (unasked (index, request) List.mem_cons_self)
      have later := leftLater other (fun asked member =>
        unasked asked (List.mem_cons_of_mem _ member))
      exact untouched_trans start _ _ _ files next final other now later

/-! ## Mounting the disk again -/

/-- The same disk mounted again, with another mount ID and an empty window. The free clusters are
known as before, or not known any more. -/
structure Remounted (id : Nat) (volume remounted : Volume) : Prop where
  disk : remounted.pDisk0.bytes = volume.pDisk0.bytes
  layout : SameLayout { volume.fs with id } remounted.fs
  window : remounted.fs.winsect = 0
  clean : remounted.fs.wflag = false
  filled : remounted.fs.win.length = sectorSize
  counter : remounted.fs.freeClust = unknown ∨ remounted.fs.freeClust = volume.fs.freeClust

/-- A clean volume is as consistent when it is mounted again. The disk is the same, and the window
holds nothing. -/
theorem remounted_storage (id : Nat) (chains : List (List Nat)) (volume remounted : Volume)
    (placed : DataPlaced start) (storage : Storage start lost chains volume)
    (clean : volume.fs.wflag = false) (again : Remounted id volume remounted) :
    Storage { start with id } lost chains remounted ∧
      (∀ number, remounted.cache.view number = volume.cache.view number) ∧
      remounted.cache.store = volume.cache.store := by
  have mounted := storage.consistent.mounted
  have sound := mounted.sound
  have before := storage.layout
  have layout : SameLayout { start with id } remounted.fs := by
    rw [SameLayout, again.layout, before]
  have store : remounted.cache.store = volume.cache.store := by
    funext number
    show sector sectorSize remounted.pDisk0.bytes number = _
    rw [again.disk]
    rfl
  have unheld : remounted.cache.held = Option.none := if_pos again.window
  have views : ∀ number, remounted.cache.view number = volume.cache.view number := by
    intro number
    rw [Cache.view, unheld, if_neg (by simp), store, clean_settled volume sound clean]
  have base : remounted.fs.fatbase = volume.fs.fatbase := by rw [layout, before]
  have fats : remounted.fs.nFats = volume.fs.nFats := by rw [layout, before]
  have size : remounted.fs.fsize = volume.fs.fsize := by rw [layout, before]
  have kind : remounted.fs.fsType = volume.fs.fsType := by rw [layout, before]
  have count : remounted.fs.nFatent = volume.fs.nFatent := by rw [layout, before]
  have same : copies remounted.fs = copies volume.fs := by
    funext number
    rw [copies, copies, base, fats, size]
  have mountedAgain : Mounted remounted := by
    refine ⟨⟨⟨?_, ?_, ?_⟩, ?_, again.filled, ?_, ?_, ?_, ?_, ?_⟩, ?_, ?_, ?_, ?_⟩
    · rw [base]
      exact sound.placed.reserved
    · rw [fats]
      exact sound.placed.present
    · rw [base, fats, size]
      exact sound.placed.inside
    · rw [again.disk]
      exact sound.complete
    · rw [again.window]
      decide
    · rw [again.clean]
      exact fun dirty => absurd dirty Bool.false_ne_true
    · intro number held
      rw [unheld] at held
      cases held
    · intro dirty
      exact absurd (again.clean.symm.trans dirty) Bool.false_ne_true
    · intro number _ copy isCopy
      rw [same] at isCopy
      rw [store]
      exact sound.coherent.mirrored number (fun _ => clean) copy isCopy
    · rw [kind]
      exact mounted.known
    · rw [count]
      exact mounted.present
    · rw [kind, count, size]
      exact mounted.roomy
    · rw [kind, count]
      exact mounted.limited
  have links : ∀ clst < volume.fs.nFatent, remounted.link clst = volume.link clst := by
    intro clst below
    rw [link_entry_of, kind]
    refine entry_of_congr volume mounted _ (fun number _ => ?_) clst below
    rw [Volume.fatSector, Volume.fatSector, base, views]
  refine ⟨⟨layout, ?_, fun number available shown => ?_⟩, views, store⟩
  · rcases again.counter with isUnknown | isCount
    · have unknownAlike := consistent_alike volume { remounted with fs := { remounted.fs with
        freeClust := volume.fs.freeClust } } lost chains storage.consistent
        (counters_mounted remounted mountedAgain remounted.fs.lastClust volume.fs.freeClust
          remounted.fs.fsiFlag) count rfl links
      exact ⟨mountedAgain, unknownAlike.holds, Or.inl isUnknown, unknownAlike.marks⟩
    · exact consistent_alike volume remounted lost chains storage.consistent mountedAgain count
        isCount links
  · have positive := available_pos start lost chains placed volume storage number available
    rw [again.window] at shown
    omega

/-- A file that is not marked is found in its entry. Its size and its first cluster are read from
there, and its chain from the FAT. -/
theorem reopened_holds (placed : DataPlaced start) (chains : List (List Nat)) (files : OpenFiles)
    (stored : List ByteFile) (holds : FilesHold start lost chains files stored)
    (clean : files.volume.fs.wflag = false) (index : Nat) (fp : FIL) (chain : List Nat)
    (file : ByteFile) (there : files.fils[index]? = some fp) (chainIs : chains[index]? = some chain)
    (fileIs : stored[index]? = some file) (unwritten : fp.faWritten = false) (id : Nat)
    (remounted : Volume) (again : Remounted id files.volume remounted) (blank : FIL)
    (buffer : blank.buf.length = sectorSize) (faRead faWrite : Bool) :
    ∃ moved, moveWindow remounted fp.dirSect = (.ok, moved) ∧
      Storage { start with id } lost chains moved ∧
      FileHolds { start with id } lost chain (openEntry blank moved faRead faWrite fp.dirPtr)
        { file with
          position := 0, readable := faRead, writable := faWrite, unsaved := false } := by
  have fileHolds := holds.each index fp chain file there chainIs fileIs
  have entryPlaced := fileHolds.entryPlaced
  have tracks := fileHolds.tracks
  have sized := tracks.backed.sized
  obtain ⟨storage, views, store⟩ :=
    remounted_storage start lost id chains files.volume remounted placed holds.storage clean again
  have mounted := storage.consistent.mounted
  have base : remounted.fs.fatbase = start.fatbase := by rw [storage.layout]
  have reserved := mounted.sound.placed.reserved
  have behind := entryPlaced.behind
  have positive : 0 < fp.dirSect := by
    dsimp only at behind
    omega
  obtain ⟨moved, move, seenSame, shown, loaded, fetched⟩ := move_window_shows remounted mounted.sound
    fp.dirSect positive entryPlaced.inside
  have system := seenSame.system
  have movedStore : moved.cache.store = files.volume.cache.store := by
    rw [fetched, Cache.fetch, ← store]
    split
    · rfl
    · rw [flush_clean _ _ again.clean]
  have movedStorage : Storage { start with id } lost chains moved := by
    refine ⟨by rw [SameLayout, system, storage.layout], consistent_same remounted moved lost chains
      storage.consistent (seen_mounted remounted moved mounted seenSame) system
      (seen_link remounted moved mounted seenSame), fun number available here => ?_⟩
    rw [shown] at here
    exact entryPlaced.free (by rw [here]; exact available)
  have window : moved.fs.win = files.volume.cache.view fp.dirSect := by
    rw [← views]
    exact loaded (outside_primary _ _
      ((same_layout_outside { start with id } _ storage.layout _).mpr (Or.inr behind)))
  obtain ⟨sizeIs, firstIs⟩ := fileHolds.recorded unwritten
  have length : ldDword moved.fs.win (fp.dirPtr + dirFileSize) = fp.fsize := by
    rw [window]
    exact sizeIs
  have first : ldClust moved.fs.win fp.dirPtr = fp.sclust := by
    rw [window]
    exact firstIs
  have isClean : fp.faDirty = false := by
    cases dirty : fp.faDirty with
    | false => rfl
    | true => exact absurd (unwritten.symm.trans (fileHolds.noted dirty)) Bool.false_ne_true
  have backed : Backed { start with id } lost chain
      (openEntry blank moved faRead faWrite fp.dirPtr) := by
    refine ⟨?_, rfl, first.trans tracks.backed.started, ?_, buffer, ⟨fun number held => ?_,
      fun dirty => absurd dirty Bool.false_ne_true,
        fun _ _ _ member => absurd member List.not_mem_nil⟩,
      Or.inl rfl⟩
    · show id = moved.fs.id
      rw [system, storage.layout]
    · show ldDword moved.fs.win (fp.dirPtr + dirFileSize) ≤ _
      rw [length]
      exact sized
    · exact absurd held (by simp [OpenFile.cache, openEntry])
  refine ⟨moved, move, movedStorage, ⟨backed, Nat.zero_le _,
    fun top => absurd top (Nat.lt_irrefl 0),
    fun off => absurd (Nat.zero_mod _) off⟩, Or.inl rfl, ?_, rfl, Nat.zero_le _, fileHolds.clusters,
    rfl, rfl, rfl, ?_, fun dirty => absurd dirty Bool.false_ne_true, fun _ => ?_⟩
  · have total : (openEntry blank moved faRead faWrite fp.dirPtr).fp.fsize = fp.fsize := length
    rw [total, fileHolds.bytes]
    refine piece_congr _ _ _ _ (fun index _ _ => ?_)
    have wasClean : ∀ number, ¬ (fp.faDirty = true ∧ fp.dsect = number) :=
      fun number both => Bool.false_ne_true (isClean.symm.trans both.1)
    rw [OpenFile.byte, OpenFile.byte, element, element,
      view_dirty start lost chain ⟨files.volume, fp⟩ tracks.backed, if_neg (wasClean _),
      view_dirty { start with id } lost chain _ backed,
      if_neg (fun both => Bool.false_ne_true both.1)]
    exact congrArg (fun stores : Nat → List u8 =>
      (stores (dataSector start chain (index / sectorSize))).getD (index % sectorSize) default)
      movedStore.symm
  · have sector : (openEntry blank moved faRead faWrite fp.dirPtr).fp.dirSect = fp.dirSect := shown
    rw [sector]
    exact ⟨entryPlaced.inside, entryPlaced.behind, entryPlaced.free, entryPlaced.room⟩
  · have held : moved.cache.view moved.fs.winsect = moved.fs.win :=
      if_pos (if_neg (by rw [shown]; exact Nat.pos_iff_ne_zero.mp positive))
    show EntryHolds (moved.cache.view moved.fs.winsect) _
    rw [held]
    exact ⟨rfl, rfl⟩

/-- The marks of the file objects are those of the sequences. So the abstract files know which
entries are behind. -/
theorem marks_match (chains : List (List Nat)) (files : OpenFiles) (stored : List ByteFile)
    (holds : FilesHold start lost chains files stored) :
    stored.map ByteFile.unsaved = files.fils.map FIL.faWritten := by
  have counted := holds.counted
  have lengths : stored.length = chains.length := by
    rw [← List.length_map, holds.clusters, List.length_map]
  refine List.ext_getElem (by rw [List.length_map, List.length_map]; omega)
    (fun index early late => ?_)
  rw [List.length_map] at early late
  rw [List.getElem_map, List.getElem_map]
  exact (holds.each index _ _ _ (List.getElem?_eq_getElem late)
    (List.getElem?_eq_getElem (by omega : index < chains.length))
    (List.getElem?_eq_getElem early)).unsaved

end Store

/-! ## Two files of a small volume -/

/-- A request that a file can be asked at any time. A truncation depends on the place. -/
def FileRequest.Plain : FileRequest → Prop
  | .read _ => True
  | .write buff => buff.length < 2 ^ 32
  | .seek ofs => ofs < 2 ^ 32
  | .truncate => False
  | .sync _ => True

/-- A run of such requests is one that the files can be asked. A plain request may be asked in any
state. -/
theorem plain_allows (files : OpenFiles) (requests : List (Nat × FileRequest))
    (plain : ∀ request ∈ requests, request.2.Plain) : files.Allows requests := by
  induction requests generalizing files with
  | nil => trivial
  | cons request rest inductionHypothesis =>
    obtain ⟨index, request⟩ := request
    have isPlain := plain (index, request) List.mem_cons_self
    refine ⟨fun fp _ => ?_, fun _ next _ =>
      inductionHypothesis next (fun other member => plain other (List.mem_cons_of_mem _ member))⟩
    cases request with
    | read => trivial
    | write => exact isPlain
    | seek => exact isPlain
    | truncate => exact isPlain.elim
    | sync => trivial

/-- A file of the small volume that was just created, with its entry in the root directory. It has
no cluster yet. -/
def smallFil (dirPtr : Nat) : FIL where
  id := 1
  faRead := true
  faWrite := true
  faWritten := true
  faDirty := false
  faError := false
  fptr := 0
  fsize := 0
  sclust := 0
  clust := 0
  dsect := 0
  dirSect := 3
  dirPtr
  buf := List.replicate sectorSize 0

/-- Two of them. Their entries are neighbours. -/
def smallFiles : OpenFiles := ⟨smallVolume emptyFat, [smallFil 0, smallFil 32]⟩

/-- The empty sequence of a file that was just created, open for reading and writing. It is
marked, as its entry is not written. -/
def emptyFile : ByteFile := ⟨[], 0, 0, true, true, true⟩

/-- The data area of the small volume is behind its root directory. It has four clusters of one
sector each. -/
theorem small_volume_placed : DataPlaced (smallVolume emptyFat).fs :=
  ⟨⟨0, by decide, rfl⟩, show 1 + 2 * 1 ≤ 4 by decide, show 4 + (6 - 2) * 1 ≤ sectorCount by decide⟩

/-- A file that was just created is empty. The buffer holds nothing. -/
theorem small_fil_holds (dirPtr : Nat) (room : dirPtr + 32 ≤ sectorSize) :
    FileHolds (smallVolume emptyFat).fs [] [] ⟨smallVolume emptyFat, smallFil dirPtr⟩
      emptyFile where
  tracks :=
    { backed := ⟨rfl, rfl, rfl, Nat.zero_le _, List.length_replicate,
        ⟨fun _ held => absurd held (by simp [OpenFile.cache, smallFil]),
          fun dirty => absurd dirty Bool.false_ne_true,
          fun _ _ _ member => absurd member List.not_mem_nil⟩, Or.inl rfl⟩
      within := Nat.zero_le _
      current := fun top => absurd top (Nat.lt_irrefl 0)
      held := fun off => absurd (Nat.zero_mod _) off }
  own := Or.inl rfl
  bytes := rfl
  position := rfl
  reached := Nat.le_refl 0
  clusters := rfl
  readable := rfl
  writable := rfl
  unsaved := rfl
  entryPlaced :=
    { inside := show 3 < sectorCount by decide
      behind := show 1 + 2 * 1 ≤ 3 by decide
      free := fun available => absurd (show 4 ≤ 3 from available.1) (by decide)
      room }
  noted := fun _ => rfl
  recorded := fun unwritten => absurd unwritten.symm Bool.noConfusion

/-- The two files are held. So the runs of requests have files to start from. -/
theorem small_files_hold :
    FilesHold smallFiles.volume.fs [] [[], []] smallFiles [emptyFile, emptyFile] where
  storage :=
    { layout := rfl
      consistent := empty_fat_consistent
      away := fun number available same => by
        have late : 4 ≤ number := available.1
        have first : 1 = number := same
        omega }
  counted := rfl
  clusters := rfl
  each := by
    intro index fp chain file fpIs chainIs fileIs
    obtain ⟨inside, _⟩ := List.getElem?_eq_some_iff.mp chainIs
    have two : index < 2 := inside
    have first := small_fil_holds 0 (by decide)
    have second := small_fil_holds 32 (by decide)
    rcases (show index = 0 ∨ index = 1 by omega) with rfl | rfl
    · cases fpIs
      cases chainIs
      cases fileIs
      exact first
    · cases fpIs
      cases chainIs
      cases fileIs
      exact second
  apart := by
    intro index other fp fil different fpIs filIs
    obtain ⟨inside, _⟩ := List.getElem?_eq_some_iff.mp fpIs
    obtain ⟨otherInside, _⟩ := List.getElem?_eq_some_iff.mp filIs
    have two : index < 2 := inside
    have otherTwo : other < 2 := otherInside
    rcases (show index = 0 ∧ other = 1 ∨ index = 1 ∧ other = 0 by omega) with ⟨rfl, rfl⟩ | ⟨rfl,
      rfl⟩
    · cases fpIs
      cases filIs
      exact Or.inr (Or.inl (Nat.le_refl 32))
    · cases fpIs
      cases filIs
      exact Or.inr (Or.inr (Nat.le_refl 32))

/-- A run on them: both are written in turns, and the first is read again and synchronized. At the
end the second is written in its middle. -/
def smallRun : List (Nat × FileRequest) :=
  [(0, .write [1, 2, 3]), (1, .write (List.replicate 600 7)), (0, .write [4]), (0, .seek 0),
    (0, .read 4), (0, .sync 0), (1, .seek 100), (1, .write [8])]

/-- The small run asks what may be asked. Each request is checked. -/
theorem small_run_allowed : smallFiles.Allows smallRun := by
  refine plain_allows _ _ ?_
  have long : (List.replicate 600 (7 : u8)).length < 2 ^ 32 := by
    rw [List.length_replicate]
    decide
  simp only [smallRun, List.forall_mem_cons, FileRequest.Plain]
  exact ⟨by decide, long, by decide, by decide, trivial, trivial, by decide, by decide,
    fun _ member => absurd member List.not_mem_nil⟩

/-- The small volume is no FAT32 volume. It is a FAT12 volume, so nothing is asked of an FSInfo
sector. -/
theorem small_volume_reserved :
    smallFiles.volume.fs.fsType = .fat32 → FsiReserved smallFiles.volume.fs :=
  fun fat32 => absurd fat32 (show FsType.fat12 ≠ .fat32 by decide)

/-! ## The open files as sequences -/

/-- In any run of requests the open files of a volume answer as sequences of bytes of their own.
The volume stays consistent, each file owns as many clusters as its sequence says, and a file that
the run does not ask is untouched. What holds behind the run is what it began with, so all of this
can be said of every part of it, and of each single request. Proof: by induction on the run, with
the lemma on one request. -/
theorem files_serve_sequences (files : OpenFiles) (lost : List Nat) (chains : List (List Nat))
    (stored : List ByteFile) (requests : List (Nat × FileRequest))
    (placed : DataPlaced files.volume.fs)
    (reserved : files.volume.fs.fsType = .fat32 → FsiReserved files.volume.fs)
    (holds : FilesHold files.volume.fs lost chains files stored) (allowed : files.Allows requests) :
    ∃ replies final storedAfter, files.serveAll requests = .ok (replies, final) ∧
      StoreRuns (clusterSize files.volume.fs) (clustersFor files.volume.fs lost []) stored requests
        replies storedAfter ∧
      ∃ changed, Consistent final.volume lost changed ∧
        storedAfter.map ByteFile.clusters = changed.map List.length ∧
        FilesHold files.volume.fs lost changed final storedAfter ∧
        ∀ other, (∀ request ∈ requests, request.1 ≠ other) →
          Untouched files.volume.fs chains changed files final other := by
  obtain ⟨replies, final, changed, storedAfter, ran, finalHolds, answers, left⟩ :=
    run_answers files.volume.fs lost placed reserved chains files stored requests holds allowed
  exact ⟨replies, final, storedAfter, ran, answers, changed, finalHolds.storage.consistent,
    finalHolds.clusters, finalHolds, left⟩

/-- Two files of a small volume answer as two sequences. Their requests come in turns. -/
theorem small_files_serve :
    ∃ replies final storedAfter, smallFiles.serveAll smallRun = .ok (replies, final) ∧
      StoreRuns (clusterSize smallFiles.volume.fs) (clustersFor smallFiles.volume.fs [] [])
        [emptyFile, emptyFile] smallRun replies storedAfter ∧
      ∃ changed, Consistent final.volume [] changed ∧
        storedAfter.map ByteFile.clusters = changed.map List.length ∧
        FilesHold smallFiles.volume.fs [] changed final storedAfter ∧
        ∀ other, (∀ request ∈ smallRun, request.1 ≠ other) →
          Untouched smallFiles.volume.fs [[], []] changed smallFiles final other :=
  files_serve_sequences smallFiles [] [[], []] [emptyFile, emptyFile] smallRun small_volume_placed
    small_volume_reserved small_files_hold small_run_allowed

/-- Behind any run, once a changed file is synchronized, its mark is cleared, and every file without
a mark is found with its bytes when the disk is mounted again, however many are asked for. The marks
are those that the sequences tell. -/
theorem synced_files_reopen (files : OpenFiles) (lost : List Nat) (chains : List (List Nat))
    (stored : List ByteFile) (requests : List (Nat × FileRequest))
    (placed : DataPlaced files.volume.fs)
    (reserved : files.volume.fs.fsType = .fat32 → FsiReserved files.volume.fs)
    (holds : FilesHold files.volume.fs lost chains files stored) (allowed : files.Allows requests) :
    ∃ replies ran storedAfter, files.serveAll requests = .ok (replies, ran) ∧
      StoreRuns (clusterSize files.volume.fs) (clustersFor files.volume.fs lost []) stored requests
        replies storedAfter ∧
      storedAfter.map ByteFile.unsaved = ran.fils.map FIL.faWritten ∧
      ∀ (index : Nat) (fp : FIL) tim, ran.fils[index]? = some fp → fp.faWritten = true →
        ∃ saved, ran.serve index (.sync tim) = .ok (⟨.ok, [], 0⟩, saved) ∧
          saved.fils = ran.fils.set index { fp with faWritten := false, faDirty := false } ∧
          ∀ (other : Nat) (fil : FIL) (file : ByteFile), saved.fils[other]? = some fil →
            storedAfter[other]? = some file → fil.faWritten = false → ∀ id remounted,
              Remounted id saved.volume remounted →
              ∀ blank : FIL, blank.buf.length = sectorSize →
                ∃ moved, moveWindow remounted fil.dirSect = (.ok, moved) ∧
                  ∀ btr, ∃ after, fRead (openEntry blank moved true false fil.dirPtr) btr =
                    .ok (.ok, file.bytes.take btr, after) := by
  generalize startIs : files.volume.fs = start at *
  obtain ⟨replies, ran, changed, storedAfter, served, ranHolds, answers, _⟩ :=
    run_answers start lost placed reserved chains files stored requests holds allowed
  refine ⟨replies, ran, storedAfter, served, answers,
    marks_match start lost changed ran storedAfter ranHolds, fun index fp tim there written => ?_⟩
  obtain ⟨reply, saved, savedChains, savedStored, synced, savedHolds, syncAnswers, _⟩ :=
    store_answers start lost placed reserved changed ran storedAfter ranHolds index (.sync tim)
      (fun _ _ => trivial)
  have counted := ranHolds.counted
  have lengths : storedAfter.length = changed.length := by
    rw [← List.length_map, ranHolds.clusters, List.length_map]
  obtain ⟨inside, _⟩ := List.getElem?_eq_some_iff.mp there
  obtain ⟨chain, chainIs⟩ : ∃ chain, changed[index]? = some chain :=
    ⟨_, List.getElem?_eq_getElem (by omega)⟩
  obtain ⟨file, fileIs⟩ : ∃ file, storedAfter[index]? = some file :=
    ⟨_, List.getElem?_eq_getElem (by omega)⟩
  have fileHolds := ranHolds.each index fp chain file there chainIs fileIs
  have storage := ranHolds.storage
  rw [chains_around changed index chain chainIs] at storage
  obtain ⟨after, ranSync, isSaved⟩ := f_sync_saves start lost _ _ chain ⟨ran.volume, fp⟩ placed
    reserved storage fileHolds.tracks fileHolds.entryPlaced written tim
  have isSynced : ran.serve index (.sync tim) =
      .ok (⟨.ok, [], 0⟩, ⟨after.volume, ran.fils.set index after.fp⟩) := by
    rw [OpenFiles.serve, there]
    dsimp only
    rw [OpenFile.serve, ranSync, ok_bind]
  rw [isSynced] at synced
  cases synced
  -- A request to synchronize leaves the bytes of the sequences.
  have sameBytes : savedStored.map ByteFile.bytes = storedAfter.map ByteFile.bytes := by
    rw [StoreAnswers, fileIs] at syncAnswers
    obtain ⟨_, ⟨_, rfl⟩, isStored⟩ := syncAnswers
    obtain ⟨fileInside, isFile⟩ := List.getElem?_eq_some_iff.mp fileIs
    have within : index < (storedAfter.map ByteFile.bytes).length := by
      rwa [List.length_map]
    have bytes : (storedAfter.map ByteFile.bytes)[index] = file.bytes := by
      rw [List.getElem_map, isFile]
    rw [isStored, List.map_set, ← bytes, List.set_getElem_self]
  refine ⟨_, isSynced, by rw [isSaved.object], fun other fil fileOther otherIs otherFile unwritten
    id remounted again blank buffer => ?_⟩
  have total := savedHolds.counted
  obtain ⟨otherInside, _⟩ := List.getElem?_eq_some_iff.mp otherIs
  obtain ⟨chainOther, otherChain⟩ : ∃ chainOther, savedChains[other]? = some chainOther :=
    ⟨_, List.getElem?_eq_getElem (by omega)⟩
  obtain ⟨savedOther, savedFile, otherBytes⟩ : ∃ savedOther, savedStored[other]? = some savedOther ∧
      savedOther.bytes = fileOther.bytes := by
    have same := congrArg (·[other]?) sameBytes
    simpa [otherFile] using same
  obtain ⟨moved, move, movedStorage, reopened⟩ := reopened_holds start lost placed savedChains _ _
    savedHolds isSaved.clean other fil chainOther savedOther otherIs otherChain savedFile unwritten
    id remounted again blank buffer true false
  rw [chains_around savedChains other chainOther otherChain] at movedStorage
  have again : DataPlaced { start with id } := ⟨placed.power, placed.behind, placed.inside⟩
  refine ⟨moved, move, fun btr => ?_⟩
  obtain ⟨reply, final, _, _, read, _, _, isRead⟩ := read_serves { start with id } lost _ _
    chainOther _ _ again movedStorage reopened btr
  rw [ByteFile.Answers, if_pos rfl] at isRead
  obtain ⟨isReply, _⟩ := isRead
  rw [OpenFile.serve] at read
  cases ended : fRead (openEntry blank moved true false fil.dirPtr) btr with
  | error fault =>
    rw [ended] at read
    cases read
  | ok answer =>
    obtain ⟨res, data, reached⟩ := answer
    rw [ended, ok_bind] at read
    cases read
    cases isReply
    refine ⟨final, ?_⟩
    dsimp only
    rw [List.drop_zero, otherBytes]

/-- A disk mounted again: the window is empty, and the free clusters are not counted. The layout
is read again and is the same. -/
def remount (id : Nat) (volume : Volume) : Volume :=
  { volume with fs := { volume.fs with
    id, winsect := 0, wflag := false, win := List.replicate sectorSize 0, freeClust := unknown } }

/-- A volume that is mounted again is on the same disk. Its window is empty and its counter is not
known. -/
theorem remount_remounted (id : Nat) (volume : Volume) :
    Remounted id volume (remount id volume) :=
  ⟨rfl, rfl, rfl, rfl, List.length_replicate, Or.inl rfl⟩

/-- Both small files are written, and the first is synchronized. The second takes more than one
sector. -/
def smallSave : List (Nat × FileRequest) :=
  [(0, .write [1, 2, 3]), (1, .write (List.replicate 600 7)), (0, .sync 0)]

/-- What the small run for saving asks may be asked. Each request is checked. -/
theorem small_save_allowed : smallFiles.Allows smallSave := by
  refine plain_allows _ _ ?_
  have long : (List.replicate 600 (7 : u8)).length < 2 ^ 32 := by
    rw [List.length_replicate]
    decide
  simp only [smallSave, List.forall_mem_cons, FileRequest.Plain]
  exact ⟨by decide, long, trivial, fun _ left => absurd left List.not_mem_nil⟩

/-- What it leaves: of the second file all six hundred bytes, still to be saved. Only the first is
without its mark. -/
theorem small_save_stored (replies : List FileReply) (storedAfter : List ByteFile)
    (runs : StoreRuns (clusterSize smallFiles.volume.fs) (clustersFor smallFiles.volume.fs [] [])
      [emptyFile, emptyFile] smallSave replies storedAfter) :
    storedAfter = [⟨[1, 2, 3], 3, 1, true, true, false⟩,
      ⟨List.replicate 600 7, 600, 2, true, true, true⟩] := by
  have cluster : clusterSize smallFiles.volume.fs = 512 := rfl
  have room : clustersFor smallFiles.volume.fs [] [] = 4 := rfl
  rw [cluster, room] at runs
  cases runs with
  | cons _ first _ _ _ _ _ _ wroteFirst later =>
    obtain ⟨changed, ⟨_, isFirst⟩, rfl⟩ := wroteFirst
    have three : changed = ⟨[1, 2, 3], 3, 1, true, true, true⟩ := isFirst.trans rfl
    cases later with
    | cons _ second _ _ _ _ _ _ wroteSecond last =>
      obtain ⟨other, ⟨_, isSecond⟩, rfl⟩ := wroteSecond
      have many : other = ⟨List.replicate 600 7, 600, 2, true, true, true⟩ := by
        have length : (List.replicate 600 (7 : u8)).length = 600 := List.length_replicate
        rw [isSecond, three]
        generalize List.replicate 600 (7 : u8) = data at length
        simp [emptyFile, overwrite, roomFor, clustersUpTo, length]
      cases last with
      | cons _ third _ _ _ _ _ _ saved done =>
        obtain ⟨final, ⟨_, isSaved⟩, rfl⟩ := saved
        cases done
        rw [isSaved, three, many]
        rfl

/-- The second file is saved then, the disk is mounted again under another ID, and a thousand bytes
are asked of it: there are six hundred. -/
theorem small_files_reopen :
    ∃ replies ran saved fil moved after, smallFiles.serveAll smallSave = .ok (replies, ran) ∧
      ran.serve 1 (.sync 7) = .ok (⟨.ok, [], 0⟩, saved) ∧ saved.fils[1]? = some fil ∧
      fil.faWritten = false ∧
      moveWindow (remount 2 saved.volume) fil.dirSect = (.ok, moved) ∧
      fRead (openEntry (smallFil 0) moved true false fil.dirPtr) 1000 =
        .ok (.ok, List.replicate 600 7, after) := by
  obtain ⟨replies, ran, storedAfter, served, runs, marks, found⟩ :=
    synced_files_reopen smallFiles []
    [[], []] [emptyFile, emptyFile] smallSave small_volume_placed small_volume_reserved
    small_files_hold small_save_allowed
  have isStored := small_save_stored replies storedAfter runs
  subst isStored
  obtain ⟨fp, there, written⟩ : ∃ fp, ran.fils[1]? = some fp ∧ fp.faWritten = true := by
    have mark : (ran.fils.map FIL.faWritten)[1]? = some true := by
      rw [← marks]
      rfl
    rwa [List.getElem?_map, Option.map_eq_some_iff] at mark
  obtain ⟨saved, synced, isSaved, reopens⟩ := found 1 fp 7 there written
  obtain ⟨inside, _⟩ := List.getElem?_eq_some_iff.mp there
  have isFil : saved.fils[1]? = some { fp with faWritten := false, faDirty := false } := by
    rw [isSaved, List.getElem?_set_self inside]
  obtain ⟨moved, move, read⟩ := reopens 1 _ _ isFil rfl rfl 2 (remount 2 saved.volume)
    (remount_remounted 2 saved.volume) (smallFil 0) List.length_replicate
  obtain ⟨after, isRead⟩ := read 1000
  rw [List.take_of_length_le (by rw [List.length_replicate]; decide)] at isRead
  exact ⟨replies, ran, saved, _, moved, after, served, synced, isFil, rfl, move, isRead⟩

end EffiLib.FatFs
