import Mathlib

/-!
# A store with one block held beside it

One block of a store is held in a window. A changed window is dirty and is written back
before another block is fetched; some blocks have copies, which are written with them. A
reader of the cache sees the window where it is held and the store elsewhere. What is seen
does not depend on when the window is written back, and behind a flush the store and its
copies are what is seen.
-/

namespace EffiLib.BlockCache

universe u
variable {β : Type u}

/-- A store with the number and the contents of the block held beside it. Nothing is held before
the first fetch. -/
@[ext]
structure Cache (β : Type u) where
  store : Nat → β
  held : Option Nat
  window : β
  dirty : Bool

/-- The store behind writing one block to several numbers. The numbers are those of the block and
of its copies. -/
def spread (store : Nat → β) (numbers : List Nat) (block : β) : Nat → β :=
  fun number => if number ∈ numbers then block else store number

namespace Cache

/-- A block as a reader of the cache sees it. Whether the window is dirty makes no difference to
it. -/
def view (cache : Cache β) (number : Nat) : β :=
  if cache.held = some number then cache.window else cache.store number

/-- Write a dirty window to its block and to the copies of the block. A window that is not dirty
is what the store has already, so nothing is written. -/
def flush (copies : Nat → List Nat) (cache : Cache β) : Cache β :=
  match cache.held with
  | none => cache
  | some number =>
    if cache.dirty then
      { cache with
        store := spread cache.store (number :: copies number) cache.window, dirty := false }
    else cache

/-- Hold another block. The block held before is flushed first; one that is held already is not
read again. -/
def fetch (copies : Nat → List Nat) (cache : Cache β) (number : Nat) : Cache β :=
  if cache.held = some number then cache
  else
    let flushed := cache.flush copies
    { flushed with held := some number, window := flushed.store number }

/-- Change the block in the window. The store has the old block until the next flush. -/
def modify (cache : Cache β) (block : β) : Cache β := { cache with window := block, dirty := true }

/-- Hold nothing, and put a block into the store directly. The window keeps the block but stands
for none, so that a later fetch reads the store. -/
def through (cache : Cache β) (number : Nat) (block : β) : Cache β :=
  { cache with store := spread cache.store [number] block, held := none, window := block }

end Cache

/-- A block that is not the copy of another. Only such blocks are fetched. -/
def Primary (copies : Nat → List Nat) (number : Nat) : Prop := ∀ other, number ∉ copies other

/-- A clean window is its block. A dirty one holds a primary block, and every other block has
true copies. -/
structure Coherent (copies : Nat → List Nat) (cache : Cache β) : Prop where
  clean : ∀ number, cache.held = some number → cache.dirty = false →
    cache.window = cache.store number
  owned : cache.dirty = true → ∃ number, cache.held = some number ∧ Primary copies number
  mirrored : ∀ number, (cache.held = some number → cache.dirty = false) →
    ∀ copy ∈ copies number, cache.store copy = cache.store number

/-- Copies belong to one block each and have none of their own. A flush therefore changes no other
block and none of its copies. -/
structure Separate (copies : Nat → List Nat) : Prop where
  sole : ∀ number other copy, copy ∈ copies number → copy ∈ copies other → number = other
  last : ∀ number copy, copy ∈ copies number → copies copy = []

section Operations

variable (copies : Nat → List Nat) (cache : Cache β)

/-- Flushing keeps which block is held. It stays in the window. -/
@[simp] theorem flush_held : (cache.flush copies).held = cache.held := by
  rw [Cache.flush]
  split
  · rfl
  · split <;> rfl

/-- Flushing keeps the contents of the window. They are written and not changed. -/
@[simp] theorem flush_window : (cache.flush copies).window = cache.window := by
  rw [Cache.flush]
  split
  · rfl
  · split <;> rfl

/-- A clean cache is left as it is. There is nothing to write. -/
theorem flush_clean (clean : cache.dirty = false) : cache.flush copies = cache := by
  rw [Cache.flush]
  split
  · rfl
  · rw [if_neg (by simp [clean])]

/-- A dirty window is written to its block and its copies. All of them get the contents of the
window. -/
theorem flush_dirty (number : Nat) (held : cache.held = some number) (dirty : cache.dirty = true) :
    cache.flush copies =
      ⟨spread cache.store (number :: copies number) cache.window, some number, cache.window,
        false⟩ := by
  simp only [Cache.flush, held, dirty, if_true]

/-- Nothing is dirty behind a flush. A dirty cache holds a block, so it is written back. -/
theorem flush_settles (coherent : Coherent copies cache) : (cache.flush copies).dirty = false := by
  cases dirty : cache.dirty with
  | false => rw [flush_clean copies cache dirty, dirty]
  | true =>
    obtain ⟨number, held, _⟩ := coherent.owned dirty
    rw [flush_dirty copies cache number held dirty]

/-- Behind a flush a primary block of the store is what its reader saw. A block that is held may
have been in the window only. -/
theorem flush_store (coherent : Coherent copies cache) (number : Nat)
    (primary : Primary copies number) :
    (cache.flush copies).store number = cache.view number := by
  cases dirty : cache.dirty with
  | false =>
    rw [flush_clean copies cache dirty, Cache.view]
    split
    · rename_i held
      exact (coherent.clean number held dirty).symm
    · rfl
  | true =>
    obtain ⟨other, held, _⟩ := coherent.owned dirty
    rw [flush_dirty copies cache other held dirty]
    simp only [Cache.view, held, spread, List.mem_cons, primary other, or_false, Option.some.injEq,
      eq_comm]

/-- Writing back changes no primary block for its reader. The reader sees the window or the store,
and these agree then. -/
theorem flush_view (coherent : Coherent copies cache) (number : Nat)
    (primary : Primary copies number) :
    (cache.flush copies).view number = cache.view number := by
  rw [Cache.view, flush_held, flush_window, flush_store copies cache coherent number primary,
    Cache.view]
  split <;> rfl

/-- A flush leaves a coherent cache. What was dirty is in the store behind it, together with its
copies. -/
theorem flush_coherent (separate : Separate copies) (coherent : Coherent copies cache) :
    Coherent copies (cache.flush copies) := by
  have settled := flush_settles copies cache coherent
  cases dirty : cache.dirty with
  | false =>
    rw [flush_clean copies cache dirty]
    exact coherent
  | true =>
    obtain ⟨number, held, primary⟩ := coherent.owned dirty
    refine ⟨?_, fun other => absurd other (by simp [settled]), ?_⟩
    · intro other isHeld _
      rw [flush_held, held] at isHeld
      obtain rfl : number = other := Option.some.inj isHeld
      rw [flush_dirty copies cache number held dirty]
      exact (if_pos List.mem_cons_self).symm
    · intro other _ copy isCopy
      rw [flush_dirty copies cache number held dirty]
      by_cases same : other = number
      · subst same
        simp only [spread, List.mem_cons, isCopy, or_true, true_or, if_true]
      · -- The copies of the other block are apart from what was written.
        have apart : copy ∉ number :: copies number := by
          rintro (_ | ⟨_, shared⟩)
          · exact primary other isCopy
          · exact same (separate.sole other number copy isCopy shared)
        have unwritten : other ∉ number :: copies number := by
          rintro (_ | ⟨_, isOther⟩)
          · exact same rfl
          · rw [separate.last number other isOther] at isCopy
            exact absurd isCopy List.not_mem_nil
        simp only [spread, if_neg apart, if_neg unwritten]
        exact coherent.mirrored other
          (fun isHeld => absurd (Option.some.inj (held.symm.trans isHeld)).symm same) copy isCopy

/-- The fetched block is held. It is in the window also where it was there before. -/
theorem fetch_held (number : Nat) : (cache.fetch copies number).held = some number := by
  rw [Cache.fetch]
  split
  · assumption
  · rfl

/-- Fetching another block changes none for its reader. This covers the block that is fetched as
well. -/
theorem fetch_view (coherent : Coherent copies cache) (requested number : Nat)
    (primary : Primary copies number) :
    (cache.fetch copies requested).view number = cache.view number := by
  have seen := flush_store copies cache coherent number primary
  rw [Cache.fetch]
  split
  · rfl
  · rw [← seen, Cache.view]
    simp only [Option.some.injEq]
    split
    · rename_i same
      rw [same]
    · rfl

/-- The window is what the reader of the fetched block saw. A dirty window is written back in
front of the fetch. -/
theorem fetch_window (coherent : Coherent copies cache) (number : Nat)
    (primary : Primary copies number) :
    (cache.fetch copies number).window = cache.view number := by
  rw [← fetch_view copies cache coherent number number primary, Cache.view,
    if_pos (fetch_held copies cache number)]

/-- Fetching leaves a coherent cache. Proof: the window is what the flushed store has, and the
copies were written with it. -/
theorem fetch_coherent (separate : Separate copies) (coherent : Coherent copies cache)
    (number : Nat) : Coherent copies (cache.fetch copies number) := by
  have flushed := flush_coherent copies cache separate coherent
  have settled := flush_settles copies cache coherent
  rw [Cache.fetch]
  split
  · exact coherent
  · refine ⟨?_, fun dirty => absurd dirty (by simp [settled]), ?_⟩
    · intro other held _
      exact congrArg (cache.flush copies).store (Option.some.inj held)
    · intro other _
      exact flushed.mirrored other (fun _ => settled)

/-- A change of the window is seen in the held block only. The store is not touched. -/
theorem modify_view (number other : Nat) (block : β) (held : cache.held = some number) :
    (cache.modify block).view other = if other = number then block else cache.view other := by
  simp only [Cache.view, Cache.modify, held, Option.some.injEq, eq_comm (a := number)]
  split <;> rfl

/-- Changing a primary block leaves a coherent cache. The window is dirty then, so the store may
be behind. -/
theorem modify_coherent (coherent : Coherent copies cache) (number : Nat) (block : β)
    (held : cache.held = some number) (primary : Primary copies number) :
    Coherent copies (cache.modify block) :=
  ⟨fun _ _ clean => absurd clean (by simp [Cache.modify]), fun _ => ⟨number, held, primary⟩,
    fun other clean => coherent.mirrored other
      (fun isHeld => absurd (clean isHeld) (by simp [Cache.modify]))⟩

end Operations

end EffiLib.BlockCache
