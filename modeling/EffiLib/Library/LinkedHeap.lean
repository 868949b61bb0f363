import EffiLib.Library.Buffers

/-!
# A heap of singly linked nodes

Nodes hold one value and a nullable next pointer. A pointer is an index into the
cells ever created, so a freshly created node never reuses a live address.
Reading or writing through a null or released pointer is a fault, as is a loop
that has not met its end within its fuel; none of them is repaired by a default.

`Chain` describes the nodes met on the way from one pointer to another together
with their values. A chain that ends in null visits distinct, stored nodes, so
the number of created cells is always enough fuel to walk it. Relinking the last
node of a segment is the one update rule; changing a value, inserting behind a
node and splicing two lists are instances of it.
-/

namespace EffiLib.LinkedHeap

open Buffers

universe u v
variable {α : Type u} {σ : Type v}

/-- One list node: the stored value and the address of the following node. No following node is
the null pointer. -/
structure Node (α : Type u) where
  value : α
  next : Option Nat
deriving DecidableEq, Repr

/-- All cells ever created, a released one reading as `none`, and the outcomes of
the allocation requests still to come. -/
structure Heap (α : Type u) where
  cells : List (Option (Node α))
  grants : Nat → Bool

namespace Heap

/-- The node stored at an address, if it was created and is not released. An address is an index
into the cells ever created. -/
def stored (heap : Heap α) (address : Nat) : Option (Node α) := heap.cells[address]?.join

/-- Follow a nullable pointer. Null and an address without a node are different faults. -/
def read (heap : Heap α) : Option Nat → Run (Node α)
  | none => .error .nullPointer
  | some address =>
    match heap.stored address with
    | none => .error .danglingPointer
    | some node => .ok node

/-- Replace the node of one address. An address that was never created stays without a node. -/
def put (heap : Heap α) (address : Nat) (node : Node α) : Heap α :=
  { heap with cells := heap.cells.set address (some node) }

/-- Write through a nullable pointer; the target must be stored. As with reading, null and
dangling pointers are different faults. -/
def write (heap : Heap α) (pointer : Option Nat) (node : Node α) : Run (Heap α) :=
  match pointer with
  | none => .error .nullPointer
  | some address =>
    match heap.stored address with
    | none => .error .danglingPointer
    | some _ => .ok (heap.put address node)

/-- Answer one allocation request and expose the outcome of the next. The outcomes are a sequence
fixed in advance, so that every pattern of refusals is covered. -/
def request (heap : Heap α) : Bool × Heap α :=
  (heap.grants 0, { heap with grants := fun later => heap.grants (later + 1) })

/-- Place a node at an address that was never used before. A pointer kept from before therefore
never aliases the new node. -/
def create (heap : Heap α) (node : Node α) : Nat × Heap α :=
  (heap.cells.length, { heap with cells := heap.cells ++ [some node] })

/-- Every allocation request still to come succeeds. Such a heap is the one on which no refusal
has to be considered. -/
def Generous (heap : Heap α) : Prop := ∀ later, heap.grants later = true

/-- A request for memory stores nothing. The cells are as before. -/
@[simp] theorem request_stored (heap : Heap α) (address : Nat) :
    heap.request.2.stored address = heap.stored address := rfl

/-- A request for memory takes no cell. A cell is taken when a node is created. -/
@[simp] theorem request_size (heap : Heap α) :
    heap.request.2.cells.length = heap.cells.length := rfl

/-- The answer to a request, by the outcome that was to come. It is used where the outcome is
known. -/
theorem request_answer (heap : Heap α) (granted : Bool) (same : heap.grants 0 = granted) :
    heap.request = (granted, heap.request.2) := by
  rw [← same]
  rfl

/-- A generous heap grants the request and stays generous. So a program with enough memory is
never refused. -/
theorem request_generous (heap : Heap α) (generous : heap.Generous) :
    heap.request.1 = true ∧ heap.request.2.Generous :=
  ⟨generous 0, fun later => generous (later + 1)⟩

/-- The same cells with other outcomes of the requests still to come. Two runs that differ only in
refusals are compared on it. -/
def regrant (heap : Heap α) (grants : Nat → Bool) : Heap α := { heap with grants := grants }

/-- The same cells with every request granted. It is what a run is compared with that is refused
memory. -/
def plenty (heap : Heap α) : Heap α := heap.regrant fun _ => true

/-- The heap of unlimited memory grants every request. -/
theorem plenty_generous (heap : Heap α) : heap.plenty.Generous := fun _ => rfl

/-- Changing the answers to requests leaves the cells. -/
@[simp] theorem regrant_cells (heap : Heap α) (grants : Nat → Bool) :
    (heap.regrant grants).cells = heap.cells := rfl

/-- Heaps with equal cells differ in their grants only. A heap is made of cells and answers. -/
theorem eq_regrant (heap changed : Heap α) (same : changed.cells = heap.cells) :
    changed = heap.regrant changed.grants := by
  cases changed
  cases heap
  exact congrArg₂ Heap.mk same rfl

/-- Reading does not depend on the answers to requests. The cells decide what is read. -/
@[simp] theorem read_regrant (heap : Heap α) (grants : Nat → Bool) (pointer : Option Nat) :
    (heap.regrant grants).read pointer = heap.read pointer := by
  cases pointer <;> rfl

/-- Writing does not depend on the answers to requests. The cells decide whether it faults. -/
theorem write_regrant (heap : Heap α) (grants : Nat → Bool) (pointer : Option Nat)
    (node : Node α) :
    (heap.regrant grants).write pointer node =
      (heap.write pointer node).map fun changed => changed.regrant grants := by
  cases pointer with
  | none => rfl
  | some address =>
    have same : (heap.regrant grants).stored address = heap.stored address := rfl
    rw [write, write, same]
    cases heap.stored address <;> rfl

/-- Stored addresses lie among the created cells. So a new cell is at none of them. -/
theorem stored_bound (heap : Heap α) (address : Nat) (node : Node α)
    (found : heap.stored address = some node) : address < heap.cells.length := by
  by_contra outside
  have missing : heap.cells[address]? = none := List.getElem?_eq_none (by omega)
  simp [stored, missing] at found

/-- A replacement is visible at its own address only. The node replaced has to be stored. -/
theorem put_stored (heap : Heap α) (address tested : Nat) (old node : Node α)
    (found : heap.stored address = some old) :
    (heap.put address node).stored tested =
      if tested = address then some node else heap.stored tested := by
  have inside : address < heap.cells.length := heap.stored_bound address old found
  by_cases same : tested = address
  · subst same
    simp [put, stored, inside]
  · simp [put, stored, List.getElem?_set_ne (Ne.symm same), same]

/-- Putting back the node that is there changes nothing. The list of cells is the same. -/
theorem put_same (heap : Heap α) (address : Nat) (node : Node α)
    (found : heap.stored address = some node) : heap.put address node = heap := by
  obtain ⟨inside, same⟩ := List.getElem?_eq_some_iff.mp (Option.join_eq_some_iff.mp found)
  rw [put, ← same, List.set_getElem_self]

/-- A created node is visible at the new address and changes nothing else. The new address is
behind all others. -/
theorem create_stored (heap : Heap α) (node : Node α) (tested : Nat) :
    (heap.create node).2.stored tested =
      if tested = heap.cells.length then some node else heap.stored tested := by
  by_cases same : tested = heap.cells.length
  · simp [create, stored, same]
  · by_cases inside : tested < heap.cells.length
    · simp [create, stored, same, List.getElem?_append_left inside]
    · have missing : heap.cells[tested]? = none := List.getElem?_eq_none (by omega)
      have beyond : (heap.cells ++ [some node])[tested]? = none :=
        List.getElem?_eq_none (by simp only [List.length_append, List.length_singleton]; omega)
      simp [create, stored, same, missing, beyond]

/-- A stored node survives the creation of another. The new cell is behind all others. -/
theorem create_kept (heap : Heap α) (address : Nat) (node added : Node α)
    (found : heap.stored address = some node) :
    (heap.create added).2.stored address = some node := by
  have bounded : address < heap.cells.length := heap.stored_bound address node found
  rw [heap.create_stored, if_neg (Nat.ne_of_lt bounded)]
  exact found

/-- A created node is found at the address that was returned. That is the last cell. -/
theorem create_found (heap : Heap α) (added : Node α) :
    (heap.create added).2.stored (heap.create added).1 = some added := by
  rw [heap.create_stored]
  exact if_pos rfl

/-- Reading a stored address yields its node. A null pointer or a freed cell would fault. -/
theorem read_stored (heap : Heap α) (address : Nat) (node : Node α)
    (found : heap.stored address = some node) : heap.read (some address) = .ok node := by
  simp [read, found]

/-- Writing to a stored address replaces its node. A null pointer or a freed cell would fault. -/
theorem write_stored (heap : Heap α) (address : Nat) (old node : Node α)
    (found : heap.stored address = some old) :
    heap.write (some address) node = .ok (heap.put address node) := by
  simp [write, found]

end Heap

/-- What a loop body decides at one node. A loop over a list goes on with the next node or
breaks. -/
inductive Visit (σ : Type v) where
  | stop : σ → Visit σ
  | continue : σ → Visit σ

/-- A pointer loop: visit each node until null is met or the body breaks out.
Fuel counts nodes; running out of it is a fault, not an answer. -/
def Heap.walk (heap : Heap α) (visit : σ → Nat → α → Visit σ) :
    Nat → Option Nat → σ → Run σ
  | _, none, state => .ok state
  | 0, some _, _ => .error .unfinished
  | fuel + 1, some address, state =>
    match heap.read (some address) with
    | .error fault => .error fault
    | .ok node =>
      match visit state address node.value with
      | .stop final => .ok final
      | .continue following => heap.walk visit fuel node.next following

/-- The loop does not look at the requests still to come. Proof: by induction on the fuel. -/
@[simp] theorem walk_regrant (heap : Heap α) (grants : Nat → Bool)
    (visit : σ → Nat → α → Visit σ) (fuel : Nat) (first : Option Nat) (state : σ) :
    (heap.regrant grants).walk visit fuel first state = heap.walk visit fuel first state := by
  induction fuel generalizing first state with
  | zero => cases first <;> rfl
  | succ fuel inductionHypothesis =>
    cases first with
    | none => rfl
    | some address => simp only [Heap.walk, Heap.read_regrant, inductionHypothesis]

/-- The same loop over the addresses and values of a list. It needs no fuel and no heap, so what a
loop does is proved over it by induction on the list. -/
def walkList (visit : σ → Nat → α → Visit σ) : List (Nat × α) → σ → σ
  | [], state => state
  | (address, value) :: rest, state =>
    match visit state address value with
    | .stop final => final
    | .continue following => walkList visit rest following

/-- The nodes met from `first` until `last`, with their values in order. The last pointer is where
the walk arrives and need not be null. -/
def Chain (heap : Heap α) : Option Nat → List (Nat × α) → Option Nat → Prop
  | first, [], last => first = last
  | first, (address, value) :: rest, last =>
    first = some address ∧ ∃ next, heap.stored address = some ⟨value, next⟩ ∧
      Chain heap next rest last

/-- Chains compose at the pointer where one ends and the other begins. Proof: by induction on the
nodes in front. -/
theorem chain_append (heap : Heap α) (first last : Option Nat) (front back : List (Nat × α)) :
    Chain heap first (front ++ back) last ↔
      ∃ middle, Chain heap first front middle ∧ Chain heap middle back last := by
  induction front generalizing first with
  | nil => simp [Chain]
  | cons node rest inductionHypothesis =>
    obtain ⟨address, value⟩ := node
    simp only [List.cons_append, Chain, inductionHypothesis]
    constructor
    · rintro ⟨start, next, found, middle, early, late⟩
      exact ⟨middle, ⟨start, next, found, early⟩, late⟩
    · rintro ⟨middle, ⟨start, next, found, early⟩, late⟩
      exact ⟨start, next, found, middle, early, late⟩

/-- A chain only depends on the nodes it visits. Changing other nodes leaves it. Proof: by
induction on the nodes. -/
theorem chain_frame (heap changed : Heap α) (first last : Option Nat) (nodes : List (Nat × α))
    (same : ∀ address ∈ nodes.map Prod.fst, changed.stored address = heap.stored address)
    (chain : Chain heap first nodes last) : Chain changed first nodes last := by
  induction nodes generalizing first with
  | nil => exact chain
  | cons node rest inductionHypothesis =>
    obtain ⟨address, value⟩ := node
    obtain ⟨start, next, found, tail⟩ := chain
    have unchanged : changed.stored address = heap.stored address := same address (by simp)
    refine ⟨start, next, unchanged.trans found, inductionHypothesis next ?_ tail⟩
    intro other member
    exact same other (by simp [member])

/-- Every visited address is stored with the visited value. The chain is cut in front of it. -/
theorem chain_stored (heap : Heap α) (first last : Option Nat) (nodes : List (Nat × α))
    (chain : Chain heap first nodes last) (address : Nat) (value : α)
    (member : (address, value) ∈ nodes) : ∃ next, heap.stored address = some ⟨value, next⟩ := by
  obtain ⟨front, back, rfl⟩ := List.append_of_mem member
  obtain ⟨middle, _, _, next, found, _⟩ := (chain_append heap first last _ _).mp chain
  exact ⟨next, found⟩

/-- The nodes from a pointer to null are determined by the heap. So the list owned by a structure
may be named without choosing it. -/
theorem chain_unique (heap : Heap α) (first : Option Nat) (left right : List (Nat × α))
    (leftChain : Chain heap first left none) (rightChain : Chain heap first right none) :
    left = right := by
  induction left generalizing first right with
  | nil =>
    cases right with
    | nil => rfl
    | cons node rest =>
      have null : first = none := leftChain
      simp [null, Chain] at rightChain
  | cons node rest inductionHypothesis =>
    obtain ⟨address, value⟩ := node
    obtain ⟨start, next, found, tail⟩ := leftChain
    cases right with
    | nil =>
      have null : first = none := rightChain
      simp [null] at start
    | cons other others =>
      obtain ⟨otherAddress, otherValue⟩ := other
      obtain ⟨otherStart, otherNext, otherFound, otherTail⟩ := rightChain
      have sameAddress : address = otherAddress := Option.some.inj (start.symm.trans otherStart)
      subst sameAddress
      have sameNode : (⟨value, next⟩ : Node α) = ⟨otherValue, otherNext⟩ :=
        Option.some.inj (found.symm.trans otherFound)
      obtain ⟨rfl, rfl⟩ := Node.mk.inj sameNode
      exact congrArg ((address, value) :: ·) (inductionHypothesis next others tail otherTail)

/-- A chain that reaches null never meets an address twice: a second visit would
start the same remaining list, which is shorter. -/
theorem chain_nodup (heap : Heap α) (first : Option Nat) (nodes : List (Nat × α))
    (chain : Chain heap first nodes none) : (nodes.map Prod.fst).Nodup := by
  induction nodes generalizing first with
  | nil => exact List.nodup_nil
  | cons node rest inductionHypothesis =>
    obtain ⟨address, value⟩ := node
    obtain ⟨start, next, found, tail⟩ := chain
    refine List.nodup_cons.mpr ⟨?_, inductionHypothesis next tail⟩
    intro again
    obtain ⟨⟨visited, other⟩, member, same⟩ := List.mem_map.mp again
    have sameAddress : visited = address := same
    subst sameAddress
    obtain ⟨front, back, split⟩ := List.append_of_mem member
    rw [split] at tail
    obtain ⟨middle, _, late⟩ := (chain_append heap next none _ _).mp tail
    have revisited : middle = some visited := late.1
    rw [revisited] at late
    have whole : Chain heap (some visited) ((visited, value) :: rest) none :=
      ⟨rfl, next, found, by rw [split]; exact tail⟩
    have lengths := congrArg List.length (chain_unique heap _ _ _ late whole)
    rw [split] at lengths
    simp only [List.length_cons, List.length_append] at lengths
    omega

/-- Chains do not depend on the requests still to come. They are made of cells. -/
@[simp] theorem chain_regrant (heap : Heap α) (grants : Nat → Bool) (first last : Option Nat)
    (nodes : List (Nat × α)) :
    Chain (heap.regrant grants) first nodes last ↔ Chain heap first nodes last :=
  ⟨fun chain => chain_frame (heap.regrant grants) heap first last nodes (fun _ _ => rfl) chain,
    fun chain => chain_frame heap (heap.regrant grants) first last nodes (fun _ _ => rfl) chain⟩

/-- The created cells outnumber the nodes of any chain to null. Proof: the addresses of the nodes
are different and below that number. -/
theorem chain_fuel (heap : Heap α) (first : Option Nat) (nodes : List (Nat × α))
    (chain : Chain heap first nodes none) : nodes.length ≤ heap.cells.length := by
  have inside : nodes.map Prod.fst ⊆ List.range heap.cells.length := by
    intro address member
    obtain ⟨⟨visited, value⟩, belongs, same⟩ := List.mem_map.mp member
    obtain ⟨next, found⟩ := chain_stored heap first none nodes chain visited value belongs
    have bounded : visited < heap.cells.length := heap.stored_bound visited _ found
    exact List.mem_range.mpr (same ▸ bounded)
  have counted := ((chain_nodup heap first nodes chain).subperm inside).length_le
  simpa using counted

/-- Along a chain to null the pointer loop is the list loop, given one unit of
fuel for each node. -/
theorem walk_chain (heap : Heap α) (visit : σ → Nat → α → Visit σ) (fuel : Nat)
    (first : Option Nat) (nodes : List (Nat × α)) (state : σ)
    (chain : Chain heap first nodes none) (enough : nodes.length ≤ fuel) :
    heap.walk visit fuel first state = .ok (walkList visit nodes state) := by
  induction nodes generalizing fuel first state with
  | nil =>
    have null : first = none := chain
    simp [null, Heap.walk, walkList]
  | cons node rest inductionHypothesis =>
    obtain ⟨address, value⟩ := node
    obtain ⟨rfl, next, found, tail⟩ := chain
    cases fuel with
    | zero => simp at enough
    | succ fuel =>
      have restEnough : rest.length ≤ fuel := by simpa using enough
      simp only [Heap.walk, heap.read_stored address _ found, walkList]
      cases visit state address value with
      | stop final => rfl
      | «continue» following => exact inductionHypothesis fuel next following tail restEnough

/-- Relinking a stored node closes the segment in front of it with the new value
and continues with the list it now points to. Neither part may contain the node. -/
theorem chain_relink (heap : Heap α) (first last next : Option Nat) (front back : List (Nat × α))
    (address : Nat) (value : α) (old : Node α) (found : heap.stored address = some old)
    (early : Chain heap first front (some address)) (late : Chain heap next back last)
    (earlyFree : address ∉ front.map Prod.fst) (lateFree : address ∉ back.map Prod.fst) :
    Chain (heap.put address ⟨value, next⟩) first (front ++ (address, value) :: back) last := by
  have untouched : ∀ other, other ≠ address →
      (heap.put address ⟨value, next⟩).stored other = heap.stored other := by
    intro other different
    rw [heap.put_stored address other old _ found, if_neg different]
  refine (chain_append _ first last front _).mpr ⟨some address, ?_, rfl, next, ?_, ?_⟩
  · refine chain_frame heap _ first _ front ?_ early
    intro other member
    exact untouched other (fun same => earlyFree (same ▸ member))
  · rw [heap.put_stored address address old _ found, if_pos rfl]
  · refine chain_frame heap _ next last back ?_ late
    intro other member
    exact untouched other (fun same => lateFree (same ▸ member))

/-- The three pieces of a chain around one visited node. Neither of the other two meets the node
again. -/
theorem chain_split (heap : Heap α) (first : Option Nat) (front back : List (Nat × α))
    (address : Nat) (value : α)
    (chain : Chain heap first (front ++ (address, value) :: back) none) :
    ∃ next, heap.stored address = some ⟨value, next⟩ ∧
      Chain heap first front (some address) ∧ Chain heap next back none ∧
      address ∉ front.map Prod.fst ∧ address ∉ back.map Prod.fst := by
  have distinct := chain_nodup heap first _ chain
  obtain ⟨middle, early, rfl, next, found, late⟩ := (chain_append heap first none _ _).mp chain
  simp only [List.map_append, List.map_cons] at distinct
  have parts := List.nodup_append.mp distinct
  have lateFree : address ∉ back.map Prod.fst := (List.nodup_cons.mp parts.2.1).1
  have earlyFree : address ∉ front.map Prod.fst := by
    intro member
    exact parts.2.2 address member address (by simp) rfl
  exact ⟨next, found, early, late, earlyFree, lateFree⟩

/-- Linking the last node of one chain to the start of another joins them, if the other
chain does not visit that node. -/
theorem chain_splice (heap : Heap α) (first second : Option Nat) (front back : List (Nat × α))
    (address : Nat) (value : α) (early : Chain heap first (front ++ [(address, value)]) none)
    (late : Chain heap second back none) (lateFree : address ∉ back.map Prod.fst) :
    Chain (heap.put address ⟨value, second⟩) first (front ++ (address, value) :: back) none := by
  obtain ⟨next, found, earlier, _, earlyFree, _⟩ :=
    chain_split heap first front [] address value early
  exact chain_relink heap first none second front back address value _ found earlier late earlyFree
    lateFree

/-- A new node does not disturb an existing chain. Its address is one that no chain visits. -/
theorem chain_create (heap : Heap α) (node : Node α) (first last : Option Nat)
    (nodes : List (Nat × α)) (chain : Chain heap first nodes last) :
    Chain (heap.create node).2 first nodes last := by
  refine chain_frame heap _ first last nodes ?_ chain
  intro address member
  obtain ⟨⟨visited, value⟩, belongs, rfl⟩ := List.mem_map.mp member
  obtain ⟨next, found⟩ := chain_stored heap first last nodes chain visited value belongs
  exact (heap.create_kept visited _ node found).trans found.symm

/-- A new node that takes over the successor of a visited node, and becomes its
successor, stands behind it in the chain. -/
theorem chain_insert (heap : Heap α) (first next : Option Nat) (front back : List (Nat × α))
    (address : Nat) (value added : α)
    (chain : Chain heap first (front ++ (address, value) :: back) none)
    (found : heap.stored address = some ⟨value, next⟩) :
    let made := heap.create ⟨added, next⟩
    made.2.stored address = some ⟨value, next⟩ ∧
      Chain (made.2.put address ⟨value, some made.1⟩) first
        (front ++ (address, value) :: (made.1, added) :: back) none := by
  intro made
  have different : address ≠ made.1 := Nat.ne_of_lt (heap.stored_bound address _ found)
  have unmoved : made.2.stored address = some ⟨value, next⟩ := heap.create_kept address _ _ found
  obtain ⟨same, madeFound, early, late, earlyFree, lateFree⟩ :=
    chain_split made.2 _ _ _ _ _ (chain_create heap ⟨added, next⟩ _ _ _ chain)
  obtain ⟨_, rfl⟩ := Node.mk.inj (Option.some.inj (madeFound.symm.trans unmoved))
  have addedChain : Chain made.2 (some made.1) ((made.1, added) :: back) none :=
    ⟨rfl, same, heap.create_found _, late⟩
  have addedFree : address ∉ ((made.1, added) :: back).map Prod.fst :=
    List.not_mem_cons_of_ne_of_not_mem different lateFree
  exact ⟨unmoved, chain_relink made.2 _ _ _ front _ address value _ madeFound early addedChain
    earlyFree addedFree⟩

/-- The first pointer of a chain to null names its first node, if there is one. An empty chain
begins with null. -/
theorem chain_first (heap : Heap α) (first : Option Nat) (nodes : List (Nat × α))
    (chain : Chain heap first nodes none) : first = nodes.head?.map Prod.fst := by
  cases nodes with
  | nil => exact chain
  | cons node rest =>
    obtain ⟨address, value⟩ := node
    exact chain.1

end EffiLib.LinkedHeap
