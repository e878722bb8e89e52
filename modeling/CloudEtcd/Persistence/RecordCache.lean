/-
# CloudEtcd.Persistence.RecordCache — the cache of decoded records (`pkg/persistence/recordcache`).

A byte-budgeted cache keyed by revision that evicts the least recently used record.  The source
keeps a linked list in order of use and a map from revisions to its elements; the model keeps the
list, front first, and looks a revision up in it.
-/
import CloudEtcd.Persistence.Types

namespace CloudEtcd

namespace RecordCache

/-- `item`. -/
structure Item where
  revision : Nat
  record : LogRecord
  size : Int

end RecordCache

open RecordCache in
/-- `recordcache.Cache`; a budget that is not positive means unbounded. -/
structure RecordCache where
  budget : Int
  used : Int
  ll : List Item

namespace RecordCache

/-- `New`. -/
def new (budgetBytes : Int) : RecordCache := ⟨budgetBytes, 0, []⟩

/-- `Size`. -/
def size (record : LogRecord) : Int :=
  record.events.foldl
    (fun n e => n + 160 + (e.kv.key.length + e.kv.value.length) +
      e.prevKv.elim 0 fun kv => kv.key.length + kv.value.length)
    64

/-- The cached item of a revision. -/
def find (c : RecordCache) (revision : Nat) : Option Item :=
  c.ll.find? fun it => it.revision = revision

/-- `list.MoveToFront`, with the item's new content. -/
def moveToFront (ll : List Item) (it : Item) : List Item :=
  it :: ll.filter fun x => x.revision ≠ it.revision

/-- `Cache.Get`. -/
def get (c : RecordCache) (revision : Nat) : RecordCache × Option LogRecord :=
  match c.find revision with
  | some it => ({ c with ll := moveToFront c.ll it }, some it.record)
  | none => (c, none)

/-- `evictOldest`. -/
def evictOldest (c : RecordCache) : RecordCache :=
  match c.ll.getLast? with
  | some it => { c with ll := c.ll.dropLast, used := c.used - it.size }
  | none => c

/-- The loop at the end of `Put`; every iteration drops an item. -/
def evict : Nat → RecordCache → RecordCache
  | 0, c => c
  | fuel + 1, c =>
    if 0 < c.budget ∧ c.budget < c.used ∧ 1 < c.ll.length then evict fuel c.evictOldest else c

/-- `Cache.Put`. -/
def put (c : RecordCache) (revision : Nat) (record : LogRecord) : RecordCache :=
  let size := size record
  match c.find revision with
  | some it =>
    evict c.ll.length
      { c with
        used := c.used + (size - it.size)
        ll := moveToFront c.ll ⟨revision, record, size⟩ }
  | none =>
    if 0 < c.budget ∧ c.budget < size then c
    else evict (c.ll.length + 1)
      { c with used := c.used + size, ll := ⟨revision, record, size⟩ :: c.ll }

/-- `Cache.Remove`. -/
def remove (c : RecordCache) (revision : Nat) : RecordCache :=
  match c.find revision with
  | some it =>
    { c with
      ll := c.ll.filter fun x => x.revision ≠ it.revision
      used := c.used - it.size }
  | none => c

/-! ## What the cache holds -/

theorem mem_moveToFront {ll : List Item} {it x : Item} (h : x ∈ moveToFront ll it) :
    x = it ∨ x ∈ ll := by
  rcases List.mem_cons.mp h with rfl | h
  · exact Or.inl rfl
  · exact Or.inr (List.mem_of_mem_filter h)

theorem mem_evict {fuel : Nat} {c : RecordCache} {x : Item} (h : x ∈ (evict fuel c).ll) :
    x ∈ c.ll := by
  induction fuel generalizing c with
  | zero => exact h
  | succ fuel ih =>
    rw [evict] at h
    split at h
    · have hold := ih h
      unfold evictOldest at hold
      split at hold
      · exact List.dropLast_subset _ hold
      · exact hold
    · exact h

/-- A lookup returns a cached record and leaves the same records cached. -/
theorem get_spec (c : RecordCache) (revision : Nat) :
    (∀ x ∈ (c.get revision).1.ll, x ∈ c.ll) ∧
    ∀ record, (c.get revision).2 = some record →
      ∃ x ∈ c.ll, x.revision = revision ∧ x.record = record := by
  unfold get
  split
  · next it hit =>
    have hmem : it ∈ c.ll := List.mem_of_find?_eq_some hit
    have hrev : it.revision = revision := by simpa using List.find?_some hit
    refine ⟨fun x hx => ?_, fun record h => ?_⟩
    · rcases mem_moveToFront hx with rfl | hx
      · exact hmem
      · exact hx
    · cases h
      exact ⟨it, hmem, hrev, rfl⟩
  · exact ⟨fun x hx => hx, fun record h => nomatch h⟩

/-- After `Put` every cached record was cached before or is the new one. -/
theorem mem_put {c : RecordCache} {revision : Nat} {record : LogRecord} {x : Item}
    (h : x ∈ (c.put revision record).ll) :
    x ∈ c.ll ∨ x.revision = revision ∧ x.record = record := by
  unfold put at h
  dsimp only at h
  split at h
  · rcases mem_moveToFront (mem_evict h) with rfl | h
    · exact Or.inr ⟨rfl, rfl⟩
    · exact Or.inl h
  · split at h
    · exact Or.inl h
    · rcases List.mem_cons.mp (mem_evict h) with rfl | h
      · exact Or.inr ⟨rfl, rfl⟩
      · exact Or.inl h

end RecordCache

end CloudEtcd
