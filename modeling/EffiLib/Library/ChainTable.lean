import Mathlib

/-!
# Chains in an allocation table

A table has an entry for every cell from a base up to a limit. The entry of a free cell is
zero, that of a cell in a chain names the next cell, and that of the last cell is the limit
or more. Chains that share no cell are kept so when a free cell is taken to start or to
stretch one, when one is cut, and when one is given back, and no cell is lost on the way.
-/

namespace EffiLib.ChainTable

/-- The cells met from the first until the last, which is not visited. The links are followed as
many times as there are cells. -/
def Path (links : Nat → Nat) : Nat → List Nat → Nat → Prop
  | first, [], last => first = last
  | first, cell :: rest, last => first = cell ∧ Path links (links cell) rest last

/-- The cells are linked in order, up to an end mark. No cell is a chain too, that of an empty
file. -/
def Chained (links : Nat → Nat) (limit : Nat) (cells : List Nat) : Prop :=
  ∃ last, limit ≤ last ∧ Path links (cells.headD limit) cells last

/-- Followed from the first over a table with any contents, the entries lead through the cells, no
two of them alike and each naming a cell or an end mark, to the place where nothing new follows:
an end mark, a cell that was met before, or one whose entry leads nowhere. -/
structure Explored (links : Nat → Nat) (base limit first : Nat) (cells : List Nat)
    (stop : Nat) : Prop where
  path : Path links first cells stop
  distinct : cells.Nodup
  inside : ∀ cell ∈ cells, base ≤ cell ∧ cell < limit ∧ base ≤ links cell
  stops : limit ≤ stop ∨ stop ∈ cells ∨ links stop < base

/-- The table with some cells free again. All other entries stay. -/
def clear (links : Nat → Nat) (cells : List Nat) : Nat → Nat :=
  fun cell => if cell ∈ cells then 0 else links cell

/-- The cells of the table that are free. Cells outside of the table do not count. -/
def freeCells (links : Nat → Nat) (base limit : Nat) : Finset Nat :=
  (Finset.Ico base limit).filter (fun cell => links cell = 0)

/-- The table holds the chains: they lie inside, no cell is in two places, and every other cell
is free or one of those that were lost before. -/
structure Holds (links : Nat → Nat) (base limit : Nat) (lost : List Nat)
    (chains : List (List Nat)) : Prop where
  chained : ∀ chain ∈ chains, Chained links limit chain
  inside : ∀ cell ∈ chains.flatten, base ≤ cell ∧ cell < limit
  distinct : (chains.flatten ++ lost).Nodup
  used : ∀ cell, base ≤ cell → cell < limit →
    (links cell = 0 ↔ cell ∉ chains.flatten ∧ cell ∉ lost)
  proper : ∀ cell, base ≤ cell → cell < limit → links cell = 0 ∨ base ≤ links cell

section Paths

variable (links changed : Nat → Nat)

/-- Paths compose where one ends and the other begins. Proof: by induction on the cells in
front. -/
theorem path_append (first last : Nat) (front back : List Nat) :
    Path links first (front ++ back) last ↔
      ∃ middle, Path links first front middle ∧ Path links middle back last := by
  induction front generalizing first with
  | nil => simp [Path]
  | cons cell rest inductionHypothesis =>
    simp only [List.cons_append, Path, inductionHypothesis]
    constructor
    · rintro ⟨start, middle, early, late⟩
      exact ⟨middle, ⟨start, early⟩, late⟩
    · rintro ⟨middle, ⟨start, early⟩, late⟩
      exact ⟨start, middle, early, late⟩

/-- A path depends on the cells that it visits. Changing other cells leaves it. Proof: by
induction on the cells. -/
theorem path_frame (first last : Nat) (cells : List Nat)
    (same : ∀ cell ∈ cells, changed cell = links cell) (path : Path links first cells last) :
    Path changed first cells last := by
  induction cells generalizing first with
  | nil => exact path
  | cons cell rest inductionHypothesis =>
    obtain ⟨start, tail⟩ := path
    refine ⟨start, inductionHypothesis _ (fun other member =>
      same other (List.mem_cons_of_mem _ member)) ?_⟩
    rw [same cell List.mem_cons_self]
    exact tail

/-- Cells that lead to an end mark are chained. The last link is at the limit or above. -/
theorem path_chained (limit first last : Nat) (cells : List Nat)
    (path : Path links first cells last) (ends : limit ≤ last) :
    Chained links limit cells := by
  cases cells with
  | nil => exact ⟨limit, Nat.le_refl _, rfl⟩
  | cons cell rest => exact ⟨last, ends, rfl, path.2⟩

/-- Each cell of a path leads to the next or to the end. So a path is cut at any of its cells. -/
theorem path_next (first last cell : Nat) (front back : List Nat)
    (path : Path links first (front ++ cell :: back) last) :
    Path links first front cell ∧ Path links (links cell) back last := by
  obtain ⟨middle, early, start, late⟩ := (path_append links first last _ _).mp path
  exact ⟨start ▸ early, late⟩

/-- What is explored when the first cell was freed behind the visit is explored in the table as it
was. A cell met twice shows as a free one. -/
theorem explored_next (base limit first stop : Nat) (cells : List Nat) (positive : 0 < base)
    (above : base ≤ first) (below : first < limit) (proper : base ≤ links first)
    (explored : Explored (Function.update links first 0) base limit (links first) cells stop) :
    Explored links base limit first (first :: cells) stop := by
  have fresh : first ∉ cells := by
    intro again
    have named := (explored.inside first again).2.2
    rw [Function.update_self] at named
    omega
  have others : ∀ cell ∈ cells, Function.update links first 0 cell = links cell := by
    intro cell member
    have apart : cell ≠ first := fun same => fresh (same ▸ member)
    exact Function.update_of_ne apart _ _
  refine ⟨⟨rfl, ?_⟩, List.nodup_cons.mpr ⟨fresh, explored.distinct⟩, ?_, ?_⟩
  · exact path_frame _ _ _ _ _ (fun cell member => (others cell member).symm) explored.path
  · intro cell member
    rcases List.mem_cons.mp member with here | later
    · rw [here]
      exact ⟨above, below, proper⟩
    · rw [← others cell later]
      exact explored.inside cell later
  · rcases explored.stops with ended | again | nowhere
    · exact Or.inl ended
    · exact Or.inr (Or.inl (List.mem_cons_of_mem _ again))
    · by_cases same : stop = first
      · exact Or.inr (Or.inl (List.mem_cons.mpr (Or.inl same)))
      · rw [Function.update_of_ne same] at nowhere
        exact Or.inr (Or.inr nowhere)

/-- What is explored depends on the table below the limit. Two tables that agree there lead to the
same walk. -/
theorem explored_congr (base limit first stop : Nat) (cells : List Nat)
    (same : ∀ cell < limit, changed cell = links cell)
    (explored : Explored links base limit first cells stop) :
    Explored changed base limit first cells stop := by
  have others : ∀ cell ∈ cells, changed cell = links cell :=
    fun cell member => same cell (explored.inside cell member).2.1
  refine ⟨path_frame links changed first stop cells others explored.path, explored.distinct,
    fun cell member => ?_, ?_⟩
  · rw [others cell member]
    exact explored.inside cell member
  · by_cases ended : limit ≤ stop
    · exact Or.inl ended
    · rw [same stop (Nat.lt_of_not_le ended)]
      exact explored.stops

/-- Cells freed one behind the other are freed together. It is the step of a loop that frees a
chain. -/
theorem clear_cons (first : Nat) (cells : List Nat) :
    clear (Function.update links first 0) cells = clear links (first :: cells) := by
  funext cell
  simp only [clear, List.mem_cons, Function.update_apply]
  by_cases again : cell ∈ cells
  · rw [if_pos again, if_pos (Or.inr again)]
  · rw [if_neg again]
    by_cases same : cell = first
    · rw [if_pos same, if_pos (Or.inl same)]
    · rw [if_neg same, if_neg (fun both => both.elim same again)]

end Paths

/-- The table matters between its bounds. Two tables that agree there hold the same chains. -/
theorem holds_congr (links changed : Nat → Nat) (base limit : Nat) (lost : List Nat)
    (chains : List (List Nat)) (holds : Holds links base limit lost chains)
    (same : ∀ cell, base ≤ cell → cell < limit → changed cell = links cell) :
    Holds changed base limit lost chains := by
  refine ⟨fun chain member => ?_, holds.inside, holds.distinct, ?_, ?_⟩
  · obtain ⟨last, ends, path⟩ := holds.chained chain member
    refine ⟨last, ends, path_frame links changed _ _ _ (fun cell visited => ?_) path⟩
    have bounds := holds.inside cell (List.mem_flatten.mpr ⟨chain, member, visited⟩)
    exact same cell bounds.1 bounds.2
  · intro cell above below
    rw [same cell above below]
    exact holds.used cell above below
  · intro cell above below
    rw [same cell above below]
    exact holds.proper cell above below

/-- Tables with the same links have the same number of free cells. Links outside the table do not
matter. -/
theorem free_cells_congr (links changed : Nat → Nat) (base limit : Nat)
    (same : ∀ cell, base ≤ cell → cell < limit → changed cell = links cell) :
    freeCells changed base limit = freeCells links base limit := by
  refine Finset.filter_congr (fun cell member => ?_)
  have bounds := Finset.mem_Ico.mp member
  rw [same cell bounds.1 bounds.2]

/-- There are fewer free cells than the limit. Each of them is in the table. -/
theorem free_cells_bounded (links : Nat → Nat) (base limit : Nat) :
    (freeCells links base limit).card ≤ limit - base := by
  rw [← Nat.card_Ico]
  exact Finset.card_filter_le _ _

/-- The free cells from a base on are it, if it is free, and those behind it. So they can be
counted from the front to the back. -/
theorem free_cells_first (links : Nat → Nat) (base limit : Nat) (below : base < limit) :
    (freeCells links base limit).card =
      (if links base = 0 then 1 else 0) + (freeCells links (base + 1) limit).card := by
  have split : Finset.Ico base limit = insert base (Finset.Ico (base + 1) limit) := by
    ext cell
    simp only [Finset.mem_insert, Finset.mem_Ico]
    omega
  rw [freeCells, split, Finset.filter_insert]
  split
  · rw [Finset.card_insert_of_notMem (by simp), Nat.add_comm]
    rfl
  · rw [Nat.zero_add]
    rfl

section Changes

variable (links changed : Nat → Nat) (base limit : Nat) (lost : List Nat)
  (front back : List (List Nat)) (old new : List Nat)

/-- The cells of one chain next to all the others. The order of cells does not matter for
counting. -/
theorem cells_gathered :
    ((front ++ old :: back).flatten ++ lost).Perm
      (old ++ (front.flatten ++ back.flatten ++ lost)) := by
  simp only [List.flatten_append, List.flatten_cons, List.append_assoc]
  exact List.perm_append_comm_assoc _ _ _

/-- A cell of the chains is one of the replaced chain or one of the others. Those are the chains
in front and behind. -/
theorem mem_chains (cell : Nat) :
    cell ∈ (front ++ old :: back).flatten ↔
      cell ∈ old ∨ cell ∈ front.flatten ∨ cell ∈ back.flatten := by
  simp only [List.flatten_append, List.flatten_cons, List.mem_append]
  exact or_left_comm

/-- One chain gives way to another, made of its cells and free ones. Starting, stretching, cutting
and releasing a chain are instances of it. -/
theorem holds_replace (holds : Holds links base limit lost (front ++ old :: back))
    (chained : Chained changed limit new) (distinct : new.Nodup)
    (inside : ∀ cell ∈ new, base ≤ cell ∧ cell < limit)
    (apart : ∀ cell ∈ new, cell ∈ old ∨ links cell = 0)
    (given : ∀ cell ∈ old, cell ∉ new → changed cell = 0)
    (kept : ∀ cell, cell ∉ old → cell ∉ new → changed cell = links cell)
    (taken : ∀ cell ∈ new, changed cell ≠ 0 ∧ base ≤ changed cell) :
    Holds changed base limit lost (front ++ new :: back) := by
  obtain ⟨_, restDistinct, disjoint⟩ := List.nodup_append.mp
    ((cells_gathered lost front back old).nodup_iff.mp holds.distinct)
  have others : ∀ cell, cell ∈ front.flatten ++ back.flatten ++ lost ↔
      cell ∈ front.flatten ∨ cell ∈ back.flatten ∨ cell ∈ lost := by
    intro cell
    simp only [List.mem_append, or_assoc]
  have apartOld : ∀ cell ∈ front.flatten ++ back.flatten ++ lost, cell ∉ old :=
    fun cell other ofOld => disjoint cell ofOld cell other rfl
  -- A cell of another chain, or a lost one, was not free, so it is none of the new chain.
  have apartNew : ∀ cell ∈ front.flatten ++ back.flatten ++ lost, cell ∉ new := by
    intro cell other ofNew
    have free := (apart cell ofNew).resolve_left (apartOld cell other)
    obtain ⟨above, below⟩ := inside cell ofNew
    obtain ⟨noChain, notLost⟩ := (holds.used cell above below).mp free
    rw [mem_chains] at noChain
    rcases (others cell).mp other with early | late | isLost
    · exact noChain (Or.inr (Or.inl early))
    · exact noChain (Or.inr (Or.inr late))
    · exact notLost isLost
  refine ⟨?_, ?_, ?_, ?_, ?_⟩
  · intro chain member
    have framed : chain ∈ front ∨ chain ∈ back → Chained changed limit chain := by
      intro which
      obtain ⟨last, ends, path⟩ := holds.chained chain
        (by rw [List.mem_append, List.mem_cons]; exact which.imp_right Or.inr)
      refine ⟨last, ends, path_frame links changed _ _ _ (fun cell visited => ?_) path⟩
      have other : cell ∈ front.flatten ++ back.flatten ++ lost :=
        (others cell).mpr (which.imp (fun early => List.mem_flatten.mpr ⟨chain, early, visited⟩)
          (fun late => Or.inl (List.mem_flatten.mpr ⟨chain, late, visited⟩)))
      exact kept cell (apartOld cell other) (apartNew cell other)
    rcases List.mem_append.mp member with early | late
    · exact framed (Or.inl early)
    · rcases List.mem_cons.mp late with rfl | behind
      · exact chained
      · exact framed (Or.inr behind)
  · intro cell member
    rcases (mem_chains front back new cell).mp member with ofNew | other
    · exact inside cell ofNew
    · exact holds.inside cell ((mem_chains front back old cell).mpr (Or.inr other))
  · rw [(cells_gathered lost front back new).nodup_iff]
    exact List.nodup_append.mpr ⟨distinct, restDistinct,
      fun cell ofNew other isOther same => apartNew other isOther (same ▸ ofNew)⟩
  · intro cell above below
    rw [mem_chains]
    by_cases ofNew : cell ∈ new
    · exact iff_of_false (taken cell ofNew).1 (fun both => both.1 (Or.inl ofNew))
    · by_cases ofOld : cell ∈ old
      · have notOther : cell ∉ front.flatten ++ back.flatten ++ lost :=
          fun other => apartOld cell other ofOld
        rw [others] at notOther
        refine iff_of_true (given cell ofOld ofNew) ⟨?_, fun isLost => notOther
          (Or.inr (Or.inr isLost))⟩
        rintro (isNew | early | late)
        · exact ofNew isNew
        · exact notOther (Or.inl early)
        · exact notOther (Or.inr (Or.inl late))
      · rw [kept cell ofOld ofNew, holds.used cell above below, mem_chains]
        simp only [ofOld, ofNew, false_or]
  · intro cell above below
    by_cases ofNew : cell ∈ new
    · exact Or.inr (taken cell ofNew).2
    · by_cases ofOld : cell ∈ old
      · exact Or.inl (given cell ofOld ofNew)
      · rw [kept cell ofOld ofNew]
        exact holds.proper cell above below

end Changes

section Steps

variable (links : Nat → Nat) (base limit : Nat) (lost : List Nat) (front back : List (List Nat))

/-- The cells of one chain. They are different, inside, in use and linked in order. -/
theorem holds_chain (cells : List Nat)
    (holds : Holds links base limit lost (front ++ cells :: back)) :
    cells.Nodup ∧ (∀ cell ∈ cells, base ≤ cell ∧ cell < limit ∧ links cell ≠ 0 ∧
      base ≤ links cell) ∧ Chained links limit cells := by
  obtain ⟨distinct, _, _⟩ := List.nodup_append.mp
    ((cells_gathered lost front back cells).nodup_iff.mp holds.distinct)
  refine ⟨distinct, fun cell member => ?_, holds.chained cells
    (List.mem_append_right _ List.mem_cons_self)⟩
  have isCell := (mem_chains front back cells cell).mpr (Or.inl member)
  obtain ⟨above, below⟩ := holds.inside cell isCell
  have inUse : links cell ≠ 0 := fun free => ((holds.used cell above below).mp free).1 isCell
  exact ⟨above, below, inUse, (holds.proper cell above below).resolve_left inUse⟩

/-- A free cell starts a chain. The chain was empty before and has this one cell behind. -/
theorem holds_start (holds : Holds links base limit lost (front ++ [] :: back)) (cell mark : Nat)
    (above : base ≤ cell) (below : cell < limit) (free : links cell = 0) (ends : limit ≤ mark) :
    Holds (Function.update links cell mark) base limit lost (front ++ [cell] :: back) := by
  refine holds_replace links _ base limit lost front back [] [cell] holds
    ⟨mark, ends, rfl, ?_⟩ (List.nodup_singleton cell) ?_ ?_ ?_ ?_ ?_
  · exact Function.update_self ..
  · intro other member
    rw [List.mem_singleton.mp member]
    exact ⟨above, below⟩
  · intro other member
    rw [List.mem_singleton.mp member]
    exact Or.inr free
  · intro other member
    exact absurd member List.not_mem_nil
  · intro other _ different
    exact Function.update_of_ne (fun same => different (List.mem_singleton.mpr same)) ..
  · intro other member
    rw [List.mem_singleton.mp member, Function.update_self]
    omega

/-- A free cell is linked to the last one of a chain. The cell in front of it loses its end mark
and names the new one. -/
theorem holds_stretch (start : List Nat) (last cell mark : Nat)
    (holds : Holds links base limit lost (front ++ (start ++ [last]) :: back))
    (above : base ≤ cell) (below : cell < limit) (positive : 0 < base) (free : links cell = 0)
    (ends : limit ≤ mark) :
    Holds (Function.update (Function.update links cell mark) last cell) base limit lost
      (front ++ (start ++ [last, cell]) :: back) := by
  obtain ⟨distinct, cells, final, _, path⟩ := holds_chain links base limit lost front back _ holds
  have apart : ∀ other ∈ start ++ [last], other ≠ cell :=
    fun other member same => (cells other member).2.2.1 (same ▸ free)
  have fresh : cell ∉ start ++ [last] := fun member => apart cell member rfl
  have lastApart : cell ≠ last := (apart last (by simp)).symm
  have early : ∀ other ∈ start, other ≠ last := by
    rintro other member rfl
    exact (List.nodup_append.mp distinct).2.2 other member other (by simp) rfl
  have changedCell : Function.update (Function.update links cell mark) last cell cell = mark := by
    rw [Function.update_of_ne lastApart, Function.update_self]
  obtain ⟨upTo, _⟩ := path_next links _ final last start [] path
  refine holds_replace links _ base limit lost front back _ (start ++ [last, cell]) holds
    ?_ ?_ ?_ ?_ ?_ ?_ ?_
  · refine path_chained _ limit ((start ++ [last]).headD limit) mark _ ?_ ends
    refine (path_append _ _ _ _ _).mpr ⟨last,
      path_frame links _ _ _ _ (fun other member => ?_) upTo,
      rfl, ?_, ?_⟩
    · rw [Function.update_of_ne (early other member),
        Function.update_of_ne (apart other (List.mem_append_left _ member))]
    · exact Function.update_self ..
    · exact changedCell
  · rw [show start ++ [last, cell] = (start ++ [last]) ++ [cell] by simp]
    exact List.nodup_append.mpr ⟨distinct, List.nodup_singleton cell,
      fun other member added isAdded =>
      by rw [List.mem_singleton.mp isAdded]; exact apart other member⟩
  · intro other member
    rw [show start ++ [last, cell] = (start ++ [last]) ++ [cell] by simp, List.mem_append] at member
    rcases member with old | new
    · exact ⟨(cells other old).1, (cells other old).2.1⟩
    · rw [List.mem_singleton.mp new]
      exact ⟨above, below⟩
  · intro other member
    rw [show start ++ [last, cell] = (start ++ [last]) ++ [cell] by simp, List.mem_append] at member
    exact member.imp_right (fun new => by rw [List.mem_singleton.mp new]; exact free)
  · intro other member absent
    rw [show start ++ [last, cell] = (start ++ [last]) ++ [cell] by simp, List.mem_append] at absent
    exact absurd (Or.inl member) absent
  · intro other notOld notNew
    rw [Function.update_of_ne (fun same => notOld (by simp [same])),
      Function.update_of_ne (fun same => notNew (by simp [same]))]
  · intro other member
    rw [show start ++ [last, cell] = (start ++ [last]) ++ [cell] by simp, List.mem_append] at member
    rcases member with old | new
    · by_cases isLast : other = last
      · rw [isLast, Function.update_self]
        omega
      · rw [Function.update_of_ne isLast, Function.update_of_ne (apart other old)]
        exact ⟨(cells other old).2.2.1, (cells other old).2.2.2⟩
    · rw [List.mem_singleton.mp new, changedCell]
      omega

/-- A chain ends behind one of its cells, and the rest is given back. The cell kept last gets an
end mark, and the entries of the rest are cleared. -/
theorem holds_cut (start rest : List Nat) (cell mark : Nat)
    (holds : Holds links base limit lost (front ++ (start ++ cell :: rest) :: back))
    (ends : limit ≤ mark) :
    Holds (clear (Function.update links cell mark) rest) base limit lost
      (front ++ (start ++ [cell]) :: back) := by
  obtain ⟨distinct, cells, final, _, path⟩ := holds_chain links base limit lost front back _ holds
  obtain ⟨_, later, apart⟩ := List.nodup_append.mp distinct
  have cellLater : cell ∉ rest := (List.nodup_cons.mp later).1
  have early : ∀ other ∈ start, other ≠ cell ∧ other ∉ rest := fun other member =>
    ⟨apart other member cell List.mem_cons_self,
      fun behind => apart other member other (List.mem_cons_of_mem _ behind) rfl⟩
  have changedCell : clear (Function.update links cell mark) rest cell = mark := by
    rw [clear, if_neg cellLater, Function.update_self]
  have changedEarly : ∀ other ∈ start,
      clear (Function.update links cell mark) rest other = links other := by
    intro other member
    rw [clear, if_neg (early other member).2, Function.update_of_ne (early other member).1]
  obtain ⟨upTo, _⟩ := path_next links _ final cell start rest path
  have bounds := cells cell (by simp)
  refine holds_replace links _ base limit lost front back _ (start ++ [cell]) holds
    ?_ ?_ ?_ ?_ ?_ ?_ ?_
  · refine path_chained _ limit ((start ++ cell :: rest).headD limit) mark _ ?_ ends
    exact (path_append _ _ _ _ _).mpr ⟨cell, path_frame links _ _ _ _ changedEarly upTo, rfl,
      changedCell⟩
  · exact distinct.sublist (((List.nil_sublist rest).cons_cons cell).append_left start)
  · intro other member
    have old : other ∈ start ++ cell :: rest := by
      rw [List.append_cons]
      exact List.mem_append_left _ member
    exact ⟨(cells other old).1, (cells other old).2.1⟩
  · intro other member
    rw [List.append_cons]
    exact Or.inl (List.mem_append_left _ member)
  · intro other member absent
    rw [List.append_cons] at member
    exact if_pos ((List.mem_append.mp member).resolve_left absent)
  · intro other notOld _
    have notRest : other ∉ rest := fun behind => notOld (by simp [behind])
    have notCell : other ≠ cell := fun same => notOld (by simp [same])
    rw [clear, if_neg notRest, Function.update_of_ne notCell]
  · intro other member
    rcases List.mem_append.mp member with before | isCell
    · rw [changedEarly other before]
      exact (cells other (List.mem_append_left _ before)).2.2
    · rw [List.mem_singleton.mp isCell, changedCell]
      omega

/-- A chain is given back. Its cells are free behind that and can be taken again. -/
theorem holds_release (cells : List Nat)
    (holds : Holds links base limit lost (front ++ cells :: back)) :
    Holds (clear links cells) base limit lost (front ++ [] :: back) := by
  refine holds_replace links _ base limit lost front back cells [] holds
    ⟨limit, Nat.le_refl _, rfl⟩ List.nodup_nil ?_ ?_ ?_ ?_ ?_
  · exact fun cell member => absurd member List.not_mem_nil
  · exact fun cell member => absurd member List.not_mem_nil
  · exact fun cell member _ => if_pos member
  · exact fun cell absent _ => if_neg absent
  · exact fun cell member => absurd member List.not_mem_nil

end Steps

/-! ## Counting the free cells -/

/-- Every cell of the table is free, lost, or in one chain. The number of free cells is thereby
known from the chains alone. Proof: the free cells, the cells of the chains and the lost ones are
disjoint and make up the table. -/
theorem holds_count (links : Nat → Nat) (base limit : Nat) (lost : List Nat)
    (chains : List (List Nat)) (holds : Holds links base limit lost chains) :
    (freeCells links base limit).card + chains.flatten.length +
        (lost.filter (fun cell => base ≤ cell ∧ cell < limit)).length = limit - base := by
  have inUse : (Finset.Ico base limit).filter (fun cell => ¬ links cell = 0) =
      (chains.flatten ++ lost.filter (fun cell => base ≤ cell ∧ cell < limit)).toFinset := by
    ext cell
    rw [Finset.mem_filter, Finset.mem_Ico, List.mem_toFinset, List.mem_append, List.mem_filter,
      decide_eq_true_iff]
    constructor
    · rintro ⟨⟨above, below⟩, used⟩
      rw [holds.used cell above below, not_and_or, not_not, not_not] at used
      exact used.imp_right (fun isLost => ⟨isLost, above, below⟩)
    · rintro (member | ⟨isLost, above, below⟩)
      · obtain ⟨above, below⟩ := holds.inside cell member
        exact ⟨⟨above, below⟩, fun free => ((holds.used cell above below).mp free).1 member⟩
      · exact ⟨⟨above, below⟩, fun free => ((holds.used cell above below).mp free).2 isLost⟩
  have distinct := holds.distinct.sublist
    ((List.filter_sublist (p := fun cell => decide (base ≤ cell ∧ cell < limit))).append_left
      chains.flatten)
  have split := Finset.card_filter_add_card_filter_not (s := Finset.Ico base limit)
    (fun cell => links cell = 0)
  rw [inUse, List.toFinset_card_of_nodup distinct, List.length_append, Nat.card_Ico] at split
  rw [freeCells, Nat.add_assoc]
  exact split

section Counting

variable (links : Nat → Nat) (base limit cell : Nat) (above : base ≤ cell) (below : cell < limit)

include above below

/-- A free cell that is taken is one less. All other cells count as before. -/
theorem free_cells_taken (mark : Nat) (free : links cell = 0) (used : mark ≠ 0) :
    (freeCells (Function.update links cell mark) base limit).card + 1 =
      (freeCells links base limit).card := by
  have taken : freeCells (Function.update links cell mark) base limit =
      (freeCells links base limit).erase cell := by
    ext other
    simp only [freeCells, Finset.mem_filter, Finset.mem_Ico, Finset.mem_erase,
      Function.update_apply]
    by_cases same : other = cell
    · simp [same, used]
    · simp [same]
  have member : cell ∈ freeCells links base limit :=
    Finset.mem_filter.mpr ⟨Finset.mem_Ico.mpr ⟨above, below⟩, free⟩
  rw [taken, Finset.card_erase_add_one member]

/-- A cell in use that is cleared is one more. The others stay as they are. -/
theorem free_cells_given (used : links cell ≠ 0) :
    (freeCells (Function.update links cell 0) base limit).card =
      (freeCells links base limit).card + 1 := by
  have given := free_cells_taken (Function.update links cell 0) base limit cell above below
    (links cell) (Function.update_self ..) used
  rw [Function.update_idem, Function.update_eq_self] at given
  exact given.symm

/-- A cell in use that is linked elsewhere is none more or less. It is in use before and behind
that. -/
theorem free_cells_relinked (mark : Nat) (used : links cell ≠ 0) (still : mark ≠ 0) :
    (freeCells (Function.update links cell mark) base limit).card =
      (freeCells links base limit).card := by
  have cleared := free_cells_given links base limit cell above below used
  have taken := free_cells_taken (Function.update links cell 0) base limit cell above below mark
    (Function.update_self ..) still
  rw [Function.update_idem, cleared] at taken
  exact Nat.add_right_cancel taken

end Counting

end EffiLib.ChainTable
