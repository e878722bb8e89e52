/-
# CloudEtcd.Persistence.CacheList — the cache with its linked list and its map.

`recordcache.Cache` finds a record through a map from revisions to the elements of a linked list.  Here the
elements are places in a heap (the items that were ever allocated), the list is a list of places, and the
map is a map to places.  `Linked` says that list and map agree; every call keeps it, and on the items that the
list holds every call does what `RecordCache` does (`Linked.get`, `Linked.put`).
-/
import CloudEtcd.Lib.GoMap
import CloudEtcd.Lib.Transition
import CloudEtcd.Persistence.CacheHistory

namespace CloudEtcd

open RecordCache (Item Op size lastPut lastUse)

/-- `recordcache.Cache`: `ll` holds the elements from the front, `items` maps a revision to its element,
`heap` has the item of every element. -/
structure LinkedCache where
  budget : Int
  used : Int
  ll : List Nat
  items : GoMap Nat Nat
  heap : List Item

namespace LinkedCache

/-- `New`. -/
def new (budgetBytes : Int) : LinkedCache := ⟨budgetBytes, 0, [], ∅, []⟩

/-- `el.Value`. -/
def value (c : LinkedCache) (el : Nat) : Option Item := c.heap[el]?

/-- `list.MoveToFront`. -/
def moveToFront (ll : List Nat) (el : Nat) : List Nat := if el ∈ ll then el :: ll.erase el else ll

/-- `Cache.Get`. -/
def get (c : LinkedCache) (revision : Nat) : LinkedCache × Option LogRecord :=
  match c.items.lookup revision with
  | none => (c, none)
  | some el => ({ c with ll := moveToFront c.ll el }, (c.value el).map Item.record)

/-- `removeElement`. -/
def removeElement (c : LinkedCache) (el : Nat) : LinkedCache :=
  match c.value el with
  | none => c
  | some it =>
    { c with
      ll := c.ll.erase el
      items := c.items.erase it.revision
      used := c.used - it.size }

/-- `evictOldest`. -/
def evictOldest (c : LinkedCache) : LinkedCache :=
  match c.ll.getLast? with
  | some el => c.removeElement el
  | none => c

/-- The loop at the end of `Put`; every iteration drops an element. -/
def evict : Nat → LinkedCache → LinkedCache
  | 0, c => c
  | fuel + 1, c =>
    if 0 < c.budget ∧ c.budget < c.used ∧ 1 < c.ll.length then evict fuel c.evictOldest else c

/-- `Cache.Put`. -/
def put (c : LinkedCache) (revision : Nat) (record : LogRecord) : LinkedCache :=
  let size := size record
  match c.items.lookup revision with
  | some el =>
    match c.value el with
    | none => c
    | some it =>
      evict c.ll.length
        { c with
          used := c.used + (size - it.size)
          heap := c.heap.set el { it with record := record, size := size }
          ll := moveToFront c.ll el }
  | none =>
    if 0 < c.budget ∧ c.budget < size then c
    else evict (c.ll.length + 1)
      { c with
        items := c.items.insert revision c.heap.length
        heap := c.heap ++ [⟨revision, record, size⟩]
        ll := c.heap.length :: c.ll
        used := c.used + size }

/-- `Cache.Remove`. -/
def remove (c : LinkedCache) (revision : Nat) : LinkedCache :=
  match c.items.lookup revision with
  | some el => c.removeElement el
  | none => c

/-- One call. -/
def apply (c : LinkedCache) : Op → LinkedCache
  | .put revision record => c.put revision record
  | .get revision => (c.get revision).1
  | .remove revision => c.remove revision

/-! ## List and map agree -/

/-- The items of the list, from the front. -/
def cached (c : LinkedCache) : List Item := c.ll.filterMap c.value

/-- The cache without the pointers. -/
def abs (c : LinkedCache) : RecordCache := ⟨c.budget, c.used, c.cached⟩

/-- Every element of the list is allocated, and the map leads to exactly these elements. -/
structure Linked (c : LinkedCache) : Prop where
  nodup : c.ll.Nodup
  alloc : ∀ el ∈ c.ll, ∃ it, c.value el = some it
  items : ∀ r el, c.items.lookup r = some el ↔
    el ∈ c.ll ∧ ∃ it, c.value el = some it ∧ it.revision = r

theorem linked_new (budget : Int) : Linked (new budget) := by
  refine ⟨List.nodup_nil, fun el hel => absurd hel List.not_mem_nil, fun r el => ?_⟩
  exact iff_of_false (fun h => by cases h) fun h => absurd h.1 List.not_mem_nil

namespace Linked

variable {c : LinkedCache} {r el : Nat} {it : Item}

theorem mem_cached : it ∈ c.cached ↔ ∃ el ∈ c.ll, c.value el = some it := List.mem_filterMap

section

variable (h : Linked c)
include h

/-- Elements of the same revision are the same. -/
theorem eq_of_revision {el' : Nat} {it' : Item} (hel : el ∈ c.ll) (hel' : el' ∈ c.ll)
    (hit : c.value el = some it) (hit' : c.value el' = some it')
    (hrev : it.revision = it'.revision) : el = el' := by
  have hfirst := (h.items it.revision el).mpr ⟨hel, it, hit, rfl⟩
  have hsecond := (h.items it.revision el').mpr ⟨hel', it', hit', hrev.symm⟩
  exact Option.some.inj (hfirst.symm.trans hsecond)

theorem length_cached : c.cached.length = c.ll.length := by
  have halloc := h.alloc
  unfold cached
  generalize c.ll = ll at halloc ⊢
  induction ll with
  | nil => rfl
  | cons el ll ih =>
    obtain ⟨it, hit⟩ := halloc el List.mem_cons_self
    rw [List.filterMap_cons_some hit, List.length_cons, List.length_cons,
      ih fun x hx => halloc x (List.mem_cons_of_mem _ hx)]

/-- The map finds what the list holds. -/
theorem find_abs (r : Nat) : c.abs.find r = (c.items.lookup r).bind c.value := by
  cases hlookup : c.items.lookup r with
  | some el =>
    obtain ⟨hel, it, hit, hrev⟩ := (h.items r el).mp hlookup
    show _ = c.value el
    rw [hit]
    have hmem : it ∈ c.cached := mem_cached.mpr ⟨el, hel, hit⟩
    obtain ⟨x, hx⟩ : ∃ x, c.abs.find r = some x := by
      refine Option.isSome_iff_exists.mp (List.find?_isSome.mpr ⟨it, hmem, by simp [hrev]⟩)
    obtain ⟨hxm, hxr⟩ := RecordCache.find_eq_some hx
    obtain ⟨el', hel', hit'⟩ := mem_cached.mp hxm
    have hsame := h.eq_of_revision hel hel' hit hit' (hrev.trans hxr.symm)
    rw [hx, ← hit, ← hit', hsame]
  | none =>
    show c.abs.find r = none
    refine List.find?_eq_none.mpr fun x hx => ?_
    obtain ⟨el, hel, hit⟩ := mem_cached.mp hx
    have hnot : x.revision ≠ r := fun heq => by
      have hsome := (h.items r el).mpr ⟨hel, x, hit, heq⟩
      rw [hlookup] at hsome
      cases hsome
    simpa using hnot

/-- Without one element, the list holds the items of the other revisions. -/
theorem filterMap_erase (hel : el ∈ c.ll) (hit : c.value el = some it) :
    (c.ll.erase el).filterMap c.value = c.cached.filter fun x => x.revision ≠ it.revision := by
  have hother : ∀ e ∈ c.ll, ∀ x, c.value e = some x → (x.revision = it.revision ↔ e = el) := by
    intro e he x hx
    constructor
    · exact fun hrev => h.eq_of_revision he hel hx hit hrev
    · rintro rfl
      rw [hit] at hx
      rw [Option.some.inj hx]
  have halloc := h.alloc
  rw [h.nodup.erase_eq_filter]
  unfold cached
  generalize c.ll = ll at hother halloc ⊢
  induction ll with
  | nil => rfl
  | cons e ll ih =>
    have htail := ih (fun x hx => hother x (List.mem_cons_of_mem _ hx))
      fun x hx => halloc x (List.mem_cons_of_mem _ hx)
    obtain ⟨x, hx⟩ := halloc e List.mem_cons_self
    have hiff := hother e List.mem_cons_self x hx
    rw [List.filterMap_cons_some hx]
    by_cases heq : e = el
    · have hrev := hiff.mpr heq
      rw [List.filter_cons_of_neg (by simpa using heq), List.filter_cons_of_neg (by simpa using hrev)]
      exact htail
    · have hrev : x.revision ≠ it.revision := fun hrev => heq (hiff.mp hrev)
      rw [List.filter_cons_of_pos (by simpa using heq), List.filter_cons_of_pos (by simpa using hrev),
        List.filterMap_cons_some hx, htail]

/-! ### Removal -/

theorem removeElement (hel : el ∈ c.ll) : Linked (c.removeElement el) := by
  obtain ⟨it, hit⟩ := h.alloc el hel
  unfold LinkedCache.removeElement
  rw [hit]
  refine ⟨h.nodup.erase el, fun x hx => h.alloc x (List.mem_of_mem_erase hx), fun r x => ?_⟩
  show (c.items.erase it.revision).lookup r = some x ↔
    x ∈ c.ll.erase el ∧ ∃ y, c.value x = some y ∧ y.revision = r
  rw [h.nodup.mem_erase_iff]
  by_cases hr : r = it.revision
  · subst hr
    rw [AList.lookup_erase]
    refine iff_of_false (fun hnone => by cases hnone) ?_
    rintro ⟨⟨hne, hx⟩, y, hy, hrev⟩
    exact hne (h.eq_of_revision hx hel hy hit hrev)
  · rw [AList.lookup_erase_ne hr, h.items]
    refine and_congr_left fun ⟨y, hy, hrev⟩ => (and_iff_right ?_).symm
    rintro rfl
    rw [hit] at hy
    exact hr (by rw [← hrev, Option.some.inj hy])

theorem abs_removeElement (hel : el ∈ c.ll) (hit : c.value el = some it) :
    (c.removeElement el).abs = { c.abs with
      ll := c.cached.filter fun x => x.revision ≠ it.revision
      used := c.used - it.size } := by
  have hrest := h.filterMap_erase hel hit
  unfold LinkedCache.removeElement
  rw [hit]
  show (⟨c.budget, c.used - it.size, (c.ll.erase el).filterMap c.value⟩ : RecordCache) = _
  rw [hrest]
  rfl

theorem remove (r : Nat) : Linked (c.remove r) ∧ (c.remove r).abs = c.abs.remove r := by
  have hfind := h.find_abs r
  unfold LinkedCache.remove RecordCache.remove
  cases hlookup : c.items.lookup r with
  | some el =>
    obtain ⟨hel, it, hit, -⟩ := (h.items r el).mp hlookup
    rw [hlookup] at hfind
    change c.abs.find r = c.value el at hfind
    rw [hfind, hit]
    exact ⟨h.removeElement hel, h.abs_removeElement hel hit⟩
  | none =>
    rw [hlookup] at hfind
    change c.abs.find r = none at hfind
    rw [hfind]
    exact ⟨h, rfl⟩

theorem evictOldest (hne : c.ll ≠ []) :
    Linked c.evictOldest ∧ c.evictOldest.abs = c.abs.evictOldest := by
  obtain ⟨init, el, hll⟩ : ∃ init el, c.ll = init ++ [el] :=
    ⟨c.ll.dropLast, c.ll.getLast hne, (List.dropLast_append_getLast hne).symm⟩
  have hel : el ∈ c.ll := by rw [hll]; simp
  obtain ⟨it, hit⟩ := h.alloc el hel
  have hevict : c.evictOldest = c.removeElement el := by
    simp [LinkedCache.evictOldest, hll]
  rw [hevict]
  refine ⟨h.removeElement hel, ?_⟩
  have hcached : c.cached = init.filterMap c.value ++ [it] := by
    rw [cached, hll, List.filterMap_append, List.filterMap_cons_some hit, List.filterMap_nil]
  have hinit : c.ll.erase el = init := by
    have hnodup := h.nodup
    rw [hll] at hnodup ⊢
    have hnot : el ∉ init := fun hin =>
      (List.nodup_append.mp hnodup).2.2 el hin el (List.mem_singleton_self el) rfl
    rw [List.erase_append_right _ hnot, List.erase_cons_head, List.append_nil]
  have hrest := h.filterMap_erase hel hit
  rw [hinit] at hrest
  rw [h.abs_removeElement hel hit, ← hrest]
  show _ = (⟨c.budget, c.used, c.cached⟩ : RecordCache).evictOldest
  simp [RecordCache.evictOldest, hcached, abs]

theorem evict (fuel : Nat) :
    Linked (LinkedCache.evict fuel c) ∧
      (LinkedCache.evict fuel c).abs = RecordCache.evict fuel c.abs := by
  induction fuel generalizing c with
  | zero => exact ⟨h, rfl⟩
  | succ fuel ih =>
    rw [LinkedCache.evict, RecordCache.evict]
    have hlen : c.abs.ll.length = c.ll.length := h.length_cached
    rw [hlen]
    by_cases hmore : 0 < c.budget ∧ c.budget < c.used ∧ 1 < c.ll.length
    · have hne : c.ll ≠ [] := List.ne_nil_of_length_pos (by omega)
      obtain ⟨hlinked, habs⟩ := h.evictOldest hne
      rw [if_pos hmore, if_pos (show 0 < c.abs.budget ∧ c.abs.budget < c.abs.used ∧ _ from hmore),
        ← habs]
      exact ih hlinked
    · rw [if_neg hmore, if_neg (show ¬ (0 < c.abs.budget ∧ c.abs.budget < c.abs.used ∧ _) from hmore)]
      exact ⟨h, rfl⟩

/-! ### Use -/

/-- An element moves to the front, perhaps with another record. -/
theorem front (hel : el ∈ c.ll) (hit : c.value el = some it) (used : Int)
    (new : Item) (hnew : new.revision = it.revision) :
    Linked { c with used := used, heap := c.heap.set el new, ll := moveToFront c.ll el } ∧
      ({ c with used := used, heap := c.heap.set el new, ll := moveToFront c.ll el } :
        LinkedCache).abs = { c.abs with used := used, ll := RecordCache.moveToFront c.cached new } := by
  have hlen : el < c.heap.length := by
    by_contra hnot
    rw [value, List.getElem?_eq_none (by omega)] at hit
    cases hit
  have hvalue : ∀ x, (c.heap.set el new)[x]? = if x = el then some new else c.value x := by
    intro x
    rw [List.getElem?_set]
    by_cases hx : el = x
    · rw [if_pos hx, if_pos hx.symm, if_pos (hx ▸ hlen)]
    · rw [if_neg hx, if_neg (Ne.symm hx)]
      rfl
  have hll : moveToFront c.ll el = el :: c.ll.erase el := if_pos hel
  have hperm : (el :: c.ll.erase el).Perm c.ll := (List.perm_cons_erase hel).symm
  rw [hll]
  refine ⟨⟨hperm.nodup_iff.mpr h.nodup, fun x hx => ?_, fun r x => ?_⟩, ?_⟩
  · obtain ⟨y, hy⟩ := h.alloc x (hperm.mem_iff.mp hx)
    show ∃ z, (c.heap.set el new)[x]? = some z
    rw [hvalue]
    split
    · exact ⟨new, rfl⟩
    · exact ⟨y, hy⟩
  · show c.items.lookup r = some x ↔
      x ∈ el :: c.ll.erase el ∧ ∃ z, (c.heap.set el new)[x]? = some z ∧ z.revision = r
    rw [hvalue, hperm.mem_iff, h.items]
    refine and_congr_right fun _ => ?_
    by_cases hx : x = el
    · subst hx
      rw [if_pos rfl, hit]
      simp [hnew]
    · rw [if_neg hx]
  · have hrest := h.filterMap_erase hel hit
    show (⟨c.budget, used, (el :: c.ll.erase el).filterMap fun x => (c.heap.set el new)[x]?⟩ :
      RecordCache) = ⟨c.budget, used, RecordCache.moveToFront c.cached new⟩
    have hhead : (c.heap.set el new)[el]? = some new := by rw [hvalue, if_pos rfl]
    have htail : (c.ll.erase el).filterMap (fun x => (c.heap.set el new)[x]?) =
        (c.ll.erase el).filterMap c.value := by
      refine List.filterMap_congr fun x hx => ?_
      rw [hvalue, if_neg (h.nodup.mem_erase_iff.mp hx).1]
    rw [List.filterMap_cons_some hhead, htail, hrest, RecordCache.moveToFront, hnew]

theorem get (r : Nat) :
    Linked (c.get r).1 ∧ (c.get r).1.abs = (c.abs.get r).1 ∧ (c.get r).2 = (c.abs.get r).2 := by
  have hfind := h.find_abs r
  unfold LinkedCache.get RecordCache.get
  cases hlookup : c.items.lookup r with
  | some el =>
    obtain ⟨hel, it, hit, -⟩ := (h.items r el).mp hlookup
    rw [hlookup] at hfind
    change c.abs.find r = c.value el at hfind
    rw [hfind, hit]
    dsimp only
    rw [hit]
    have hset : c.heap.set el it = c.heap := by
      obtain ⟨hlen, hget⟩ := List.getElem?_eq_some_iff.mp hit
      rw [← hget, List.set_getElem_self]
    obtain ⟨hlinked, habs⟩ := h.front hel hit c.used it rfl
    rw [hset] at hlinked habs
    exact ⟨hlinked, habs, rfl⟩
  | none =>
    rw [hlookup] at hfind
    change c.abs.find r = none at hfind
    rw [hfind]
    exact ⟨h, rfl, rfl⟩

/-- A new element is pushed to the front. -/
theorem push (hlookup : c.items.lookup r = none) (used : Int) (new : Item)
    (hnew : new.revision = r) :
    Linked { c with
      items := c.items.insert r c.heap.length
      heap := c.heap ++ [new]
      ll := c.heap.length :: c.ll
      used := used } ∧
    ({ c with
      items := c.items.insert r c.heap.length
      heap := c.heap ++ [new]
      ll := c.heap.length :: c.ll
      used := used } : LinkedCache).abs = { c.abs with used := used, ll := new :: c.cached } := by
  have hlow : ∀ x ∈ c.ll, x < c.heap.length := by
    intro x hx
    obtain ⟨y, hy⟩ := h.alloc x hx
    exact (List.getElem?_eq_some_iff.mp hy).1
  have hold : ∀ x ∈ c.ll, (c.heap ++ [new])[x]? = c.value x := fun x hx =>
    List.getElem?_append_left (hlow x hx)
  have hhead : (c.heap ++ [new])[c.heap.length]? = some new := List.getElem?_concat_length
  have hfresh : c.heap.length ∉ c.ll := fun hin => lt_irrefl _ (hlow _ hin)
  refine ⟨⟨List.nodup_cons.mpr ⟨hfresh, h.nodup⟩, fun x hx => ?_, fun q x => ?_⟩, ?_⟩
  · show ∃ z, (c.heap ++ [new])[x]? = some z
    rcases List.mem_cons.mp hx with rfl | hx
    · exact ⟨new, hhead⟩
    · rw [hold x hx]
      exact h.alloc x hx
  · show (c.items.insert r c.heap.length).lookup q = some x ↔
      x ∈ c.heap.length :: c.ll ∧ ∃ z, (c.heap ++ [new])[x]? = some z ∧ z.revision = q
    by_cases hq : q = r
    · subst hq
      rw [AList.lookup_insert]
      constructor
      · intro heq
        obtain rfl := Option.some.inj heq
        exact ⟨List.mem_cons_self, new, hhead, hnew⟩
      · rintro ⟨hx, z, hz, hrev⟩
        rcases List.mem_cons.mp hx with rfl | hx
        · rfl
        · rw [hold x hx] at hz
          have hin := (h.items q x).mpr ⟨hx, z, hz, hrev⟩
          rw [hlookup] at hin
          cases hin
    · rw [AList.lookup_insert_ne hq, h.items]
      constructor
      · rintro ⟨hx, z, hz, hrev⟩
        exact ⟨List.mem_cons_of_mem _ hx, z, by rw [hold x hx]; exact hz, hrev⟩
      · rintro ⟨hx, z, hz, hrev⟩
        rcases List.mem_cons.mp hx with rfl | hx
        · rw [hhead] at hz
          obtain rfl := Option.some.inj hz
          exact absurd (hrev.symm.trans hnew) hq
        · rw [hold x hx] at hz
          exact ⟨hx, z, hz, hrev⟩
  · show (⟨c.budget, used, (c.heap.length :: c.ll).filterMap fun x => (c.heap ++ [new])[x]?⟩ :
      RecordCache) = ⟨c.budget, used, new :: c.cached⟩
    rw [List.filterMap_cons_some hhead, List.filterMap_congr hold]
    rfl

theorem put (r : Nat) (record : LogRecord) :
    Linked (c.put r record) ∧ (c.put r record).abs = c.abs.put r record := by
  have hfind := h.find_abs r
  have hlen : c.abs.ll.length = c.ll.length := h.length_cached
  unfold LinkedCache.put RecordCache.put
  cases hlookup : c.items.lookup r with
  | some el =>
    obtain ⟨hel, it, hit, hrev⟩ := (h.items r el).mp hlookup
    rw [hlookup] at hfind
    change c.abs.find r = c.value el at hfind
    rw [hfind, hit, hlen]
    dsimp only
    rw [hit]
    obtain ⟨hlinked, habs⟩ := h.front hel hit (c.used + (size record - it.size))
      { it with record := record, size := size record } rfl
    obtain ⟨hlinked', habs'⟩ := hlinked.evict c.ll.length
    refine ⟨hlinked', habs'.trans ?_⟩
    rw [habs, hrev]
    rfl
  | none =>
    rw [hlookup] at hfind
    change c.abs.find r = none at hfind
    rw [hfind, hlen]
    dsimp only
    by_cases hrefused : 0 < c.budget ∧ c.budget < size record
    · rw [if_pos hrefused, if_pos (show 0 < c.abs.budget ∧ c.abs.budget < _ from hrefused)]
      exact ⟨h, rfl⟩
    · rw [if_neg hrefused, if_neg (show ¬ (0 < c.abs.budget ∧ c.abs.budget < _) from hrefused)]
      obtain ⟨hlinked, habs⟩ := h.push hlookup (c.used + size record) ⟨r, record, size record⟩ rfl
      obtain ⟨hlinked', habs'⟩ := hlinked.evict (c.ll.length + 1)
      exact ⟨hlinked', habs'.trans (by rw [habs]; rfl)⟩

end

end Linked

/-! ## Runs -/

/-- The cache, and the calls that were made, the last one first. -/
structure Traced where
  cache : LinkedCache
  history : List Op

namespace Traced

/-- One call. -/
def step (s : Traced) (op : Op) : Option Traced := some ⟨s.cache.apply op, op :: s.history⟩

/-- A new cache. -/
def init (budget : Int) : Traced := ⟨new budget, []⟩

/-- List and map agree, and the list follows the history. -/
structure Sound (s : Traced) : Prop where
  linked : Linked s.cache
  ordered : RecordCache.Ordered s.cache.abs s.history

theorem sound_init (budget : Int) : (init budget).Sound :=
  ⟨linked_new budget, RecordCache.Ordered.empty budget⟩

theorem Sound.step {s s' : Traced} {op : Op} (h : s.Sound) (hstep : s.step op = some s') :
    s'.Sound := by
  obtain rfl := Option.some.inj hstep
  cases op with
  | put r record =>
    obtain ⟨hlinked, habs⟩ := h.linked.put r record
    refine ⟨hlinked, ?_⟩
    show RecordCache.Ordered (s.cache.put r record).abs _
    rw [habs]
    exact h.ordered.put r record
  | get r =>
    obtain ⟨hlinked, habs, -⟩ := h.linked.get r
    refine ⟨hlinked, ?_⟩
    show RecordCache.Ordered (s.cache.get r).1.abs _
    rw [habs]
    exact h.ordered.get r
  | remove r =>
    obtain ⟨hlinked, habs⟩ := h.linked.remove r
    refine ⟨hlinked, ?_⟩
    show RecordCache.Ordered (s.cache.remove r).abs _
    rw [habs]
    exact h.ordered.remove r

/-- The revisions of the list. -/
def revisions (c : LinkedCache) : List Nat := c.cached.map Item.revision

/-- The accounts of the cache are right and within the budget. -/
structure Accounts (s : Traced) : Prop where
  /-- Every revision once in the list, and the same ones in the map. -/
  same : (revisions s.cache).Nodup ∧ ∀ r, r ∈ revisions s.cache ↔ r ∈ s.cache.items
  used : s.cache.used = (s.cache.cached.map fun it => size it.record).sum
  latest : ∀ r ∈ s.cache.items, ∃ record, (s.cache.get r).2 = some record ∧
    lastPut s.history r = some record
  budget : 0 < s.cache.budget → s.cache.used ≤ s.cache.budget
  /-- What a `Put` evicts was used before everything that stays. -/
  least : ∀ r record, ∀ x ∈ s.cache.items, x ∉ (s.cache.put r record).items →
    ∀ y ∈ (s.cache.put r record).items, lastUse s.history x < lastUse (.put r record :: s.history) y
  /-- With the last of the evicted records the cache would be over the budget. -/
  needed : ∀ r record, ∀ x ∈ s.cache.items, x ∉ (s.cache.put r record).items →
    (∀ y ∈ s.cache.items, y ∉ (s.cache.put r record).items → lastUse s.history y ≤ lastUse s.history x) →
    ∀ held, lastPut s.history x = some held →
      0 < s.cache.budget ∧ s.cache.budget < (s.cache.put r record).used + size held

theorem mem_revisions {c : LinkedCache} (h : Linked c) (r : Nat) : r ∈ revisions c ↔ r ∈ c.items := by
  rw [← AList.lookup_isSome, Option.isSome_iff_exists]
  constructor
  · intro hr
    obtain ⟨it, hit, rfl⟩ := List.mem_map.mp hr
    obtain ⟨el, hel, hvalue⟩ := Linked.mem_cached.mp hit
    exact ⟨el, (h.items _ el).mpr ⟨hel, it, hvalue, rfl⟩⟩
  · rintro ⟨el, hlookup⟩
    obtain ⟨hel, it, hvalue, rfl⟩ := (h.items r el).mp hlookup
    exact List.mem_map_of_mem (Linked.mem_cached.mpr ⟨el, hel, hvalue⟩)

/-- All but the bound holds in every run. -/
theorem Sound.accounts {s : Traced} (h : s.Sound)
    (hbudget : 0 < s.cache.budget → s.cache.used ≤ s.cache.budget) : s.Accounts := by
  have hmem := mem_revisions h.linked
  have hput : ∀ r record x, x ∈ (s.cache.abs.put r record).ll.map Item.revision ↔
      x ∈ (s.cache.put r record).items := fun r record x => by
    obtain ⟨hlinked, habs⟩ := h.linked.put r record
    rw [← habs]
    exact mem_revisions hlinked x
  have hevicts := fun r record => h.ordered.evictsLeast r record
  refine ⟨⟨h.ordered.recent.nodup, hmem⟩, ?_, fun r hr => ?_, hbudget,
    fun r record x hx hnot y hy => ?_, fun r record x hx hnot hmost held hheld => ?_⟩
  · have hsizes : s.cache.cached.map Item.size = s.cache.cached.map fun it => size it.record :=
      List.map_congr_left h.ordered.sizes
    rw [← hsizes]
    exact h.ordered.used
  · obtain ⟨-, -, hget⟩ := h.linked.get r
    obtain ⟨it, hit, rfl⟩ := List.mem_map.mp ((hmem r).mpr hr)
    obtain ⟨x, hx⟩ : ∃ x, s.cache.abs.find it.revision = some x :=
      Option.isSome_iff_exists.mp (List.find?_isSome.mpr ⟨it, hit, by simp⟩)
    obtain ⟨hxm, hxr⟩ := RecordCache.find_eq_some hx
    refine ⟨x.record, ?_, ?_⟩
    · rw [hget, RecordCache.get, hx]
    · rw [← hxr]
      exact h.ordered.latest x hxm
  · exact (hevicts r record).least x ((hmem x).mpr hx) (fun hin => hnot ((hput r record x).mp hin)) y
      ((hput r record y).mpr hy)
  · have hused : (s.cache.put r record).used = (s.cache.abs.put r record).used := by
      rw [← (h.linked.put r record).2]
      rfl
    rw [hused]
    refine (hevicts r record).needed x ((hmem x).mpr hx) (fun hin => hnot ((hput r record x).mp hin))
      (fun y hy hgone => ?_) held hheld
    exact hmost y ((hmem y).mp hy) fun hin => hgone ((hput r record y).mpr hin)

/-- A record that replaces a cached one fits into the budget. -/
def ReplacesFitting (s : Traced) (op : Op) : Prop :=
  match op with
  | .put r record => r ∈ s.cache.items → 0 < s.cache.budget → size record ≤ s.cache.budget
  | _ => True

instance (s : Traced) : (op : Op) → Decidable (s.ReplacesFitting op)
  | .put r record => inferInstanceAs
      (Decidable (r ∈ s.cache.items → 0 < s.cache.budget → size record ≤ s.cache.budget))
  | .get _ => inferInstanceAs (Decidable True)
  | .remove _ => inferInstanceAs (Decidable True)

theorem find_ne_none {c : LinkedCache} (h : Linked c) {r : Nat} :
    c.abs.find r ≠ none ↔ r ∈ c.items := by
  rw [← mem_revisions h, Option.ne_none_iff_isSome]
  constructor
  · intro hsome
    obtain ⟨x, hx⟩ := Option.isSome_iff_exists.mp hsome
    obtain ⟨hxm, rfl⟩ := RecordCache.find_eq_some hx
    exact List.mem_map_of_mem hxm
  · intro hr
    obtain ⟨it, hit, rfl⟩ := List.mem_map.mp hr
    exact List.find?_isSome.mpr ⟨it, hit, by simp⟩

/-- A call keeps the bound exactly if the record that it puts in the place of another one fits. -/
theorem accounts_step {s s' : Traced} {op : Op} (h : s.Sound) (hacc : s.Accounts)
    (hstep : s.step op = some s') : s'.Accounts ↔ s.ReplacesFitting op := by
  have hsound := h.step hstep
  obtain rfl := Option.some.inj hstep
  cases op with
  | put r record =>
    have habs := (h.linked.put r record).2
    have hbudget : (s.cache.put r record).budget = s.cache.budget :=
      (congrArg RecordCache.budget habs).trans (RecordCache.put_budget _ _ _)
    have hused : (s.cache.put r record).used = (s.cache.abs.put r record).used :=
      congrArg RecordCache.used habs
    constructor
    · intro hacc' hr hpos
      by_contra hlarge
      have hover := h.ordered.put_lt_used ((find_ne_none h.linked).mpr hr)
        (show s.cache.abs.budget < RecordCache.size record from not_le.mp hlarge)
      have hle : (s.cache.put r record).used ≤ (s.cache.put r record).budget :=
        hacc'.budget (hbudget.symm ▸ hpos)
      rw [hused, hbudget] at hle
      exact absurd hover (not_lt.mpr hle)
    · intro hfits
      refine hsound.accounts fun hpos => ?_
      show (s.cache.put r record).used ≤ (s.cache.put r record).budget
      have hpos' : 0 < s.cache.budget := hbudget ▸ hpos
      rw [hused, hbudget]
      refine h.ordered.put_used_le hpos' (hacc.budget hpos') fun hfind => ?_
      exact hfits ((find_ne_none h.linked).mp hfind) hpos'
  | get r =>
    refine iff_of_true (hsound.accounts fun hpos => ?_) trivial
    have hsame : (s.cache.get r).1.used = s.cache.used ∧ (s.cache.get r).1.budget = s.cache.budget := by
      unfold LinkedCache.get
      split <;> exact ⟨rfl, rfl⟩
    show (s.cache.get r).1.used ≤ (s.cache.get r).1.budget
    rw [hsame.1, hsame.2]
    exact hacc.budget (hsame.2 ▸ hpos)
  | remove r =>
    refine iff_of_true (hsound.accounts fun hpos => ?_) trivial
    have habs := (h.linked.remove r).2
    have hbudget : (s.cache.remove r).budget = s.cache.budget := by
      unfold LinkedCache.remove
      split
      · unfold LinkedCache.removeElement
        split <;> rfl
      · rfl
    have hused : (s.cache.remove r).used = (s.cache.abs.remove r).used :=
      congrArg RecordCache.used habs
    show (s.cache.remove r).used ≤ (s.cache.remove r).budget
    rw [hused, hbudget]
    exact (h.ordered.remove_used_le r).trans (hacc.budget (hbudget ▸ hpos))

/-- In every run from a new cache, list and map agree, the accounts are right, lookups return what was put
last and evictions drop what was used longest ago; and the cache stays within its budget exactly if no
cached record is replaced by one that is larger than the budget. -/
theorem cache_accounts_iff {budget : Int} {ops : List Op} {s : Traced}
    (hrun : Transition.run step (init budget) ops = some s) :
    Transition.Always step Accounts (init budget) ops ↔
      Transition.Each step ReplacesFitting (init budget) ops :=
  Transition.always_iff_each (I := Sound) (fun _ _ _ h hstep => h.step hstep)
    (fun _ _ _ h hacc hstep => accounts_step h hacc hstep) hrun (sound_init budget)
    ((sound_init budget).accounts fun hpos => hpos.le)

/-- A record with one event of the given size. -/
def sized (n : Nat) : LogRecord := ⟨[{ type := .put, kv := { key := [97], value := List.replicate n 0 } }]⟩

/-- Replacements that fit, with an eviction. -/
theorem cache_accounts_evicting :
    Transition.Always step Accounts (init 600)
      [.put 1 (sized 10), .put 2 (sized 20), .get 1, .put 1 (sized 100), .put 3 (sized 30), .remove 2] := by
  have hsome : (Transition.run step (init 600) [.put 1 (sized 10), .put 2 (sized 20), .get 1,
      .put 1 (sized 100), .put 3 (sized 30), .remove 2]).isSome = true := rfl
  obtain ⟨s, hs⟩ := Option.isSome_iff_exists.mp hsome
  exact (cache_accounts_iff hs).mpr (by decide +kernel)

/-- A record is replaced by one that is larger than the whole budget. -/
theorem cache_over_budget : ∃ s,
    Transition.run step (init 300) [.put 1 (sized 10), .put 1 (sized 200)] = some s ∧
      s.cache.used = 425 ∧ ¬ s.Accounts := by
  refine ⟨_, rfl, by decide +kernel, fun hacc => ?_⟩
  exact absurd (hacc.budget (by decide +kernel)) (by decide +kernel)

end Traced

end LinkedCache

end CloudEtcd
