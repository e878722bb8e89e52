/-
# CloudEtcd.Persistence.CacheHistory — the cache against the history of its uses.

`lastPut` and `lastUse` read off the history which record was put last under a revision, and when a revision
was put or looked up last.  `Ordered` relates the cache to its history: the list runs from the revision that
was used last backwards, every item has the record that was put last, and `used` is the sum of the sizes.
Every operation keeps it.  What `Put` evicts is then a suffix of that list (`Trimmed`).

The bound is kept as long as no cached record is replaced by one that is larger than the whole budget: the
loop stops at the last item, and only an insertion looks at the record's own size.
-/
import CloudEtcd.Persistence.RecordCache

namespace CloudEtcd

namespace RecordCache

/-! ## Histories -/

/-- A call of the cache. -/
inductive Op where
  | put (revision : Nat) (record : LogRecord)
  | get (revision : Nat)
  | remove (revision : Nat)

/-- The call uses the revision. -/
def Op.uses : Op → Nat → Bool
  | .put revision _, r => revision = r
  | .get revision, r => revision = r
  | .remove _, _ => false

/-- When a revision was used last; the history has the last call first, and 0 stands for never. -/
def lastUse : List Op → Nat → Nat
  | [], _ => 0
  | op :: older, r => if op.uses r then older.length + 1 else lastUse older r

/-- The record that was put last under a revision. -/
def lastPut : List Op → Nat → Option LogRecord
  | [], _ => none
  | .put revision record :: older, r => if revision = r then some record else lastPut older r
  | .get _ :: older, r => lastPut older r
  | .remove _ :: older, r => lastPut older r

variable {history : List Op} {op : Op} {r : Nat}

theorem lastUse_le (history : List Op) (r : Nat) : lastUse history r ≤ history.length := by
  induction history with
  | nil => exact le_refl 0
  | cons op older ih =>
    rw [lastUse, List.length_cons]
    split
    · exact le_refl _
    · exact ih.trans (Nat.le_succ _)

theorem lastUse_of_uses (h : op.uses r = true) : lastUse (op :: history) r = history.length + 1 := by
  rw [lastUse, if_pos h]

theorem lastUse_of_not_uses (h : op.uses r = false) : lastUse (op :: history) r = lastUse history r := by
  rw [lastUse, if_neg (by rw [h]; exact Bool.false_ne_true)]

/-- A revision that has just been used was used after all others. -/
theorem lastUse_lt {r' : Nat} (h : op.uses r = true) (h' : op.uses r' = false) :
    lastUse (op :: history) r' < lastUse (op :: history) r := by
  rw [lastUse_of_uses h, lastUse_of_not_uses h']
  exact Nat.lt_succ_of_le (lastUse_le history r')

theorem size_pos (record : LogRecord) : 0 < size record := by
  unfold size
  -- The loop only adds.
  have hstart : (0 : Int) < 64 := by omega
  generalize (64 : Int) = n at hstart ⊢
  induction record.events generalizing n with
  | nil => exact hstart
  | cons e es ih =>
    rw [List.foldl_cons]
    apply ih
    cases e.prevKv <;> simp only [Option.elim] <;> omega

/-! ## The cache and its history -/

/-- The bytes of the items. -/
def total (ll : List Item) : Int := (ll.map Item.size).sum

/-- Items in the order of their last use. -/
def Recent (history : List Op) (ll : List Item) : Prop :=
  ll.Pairwise fun x y => lastUse history y.revision < lastUse history x.revision

/-- The cache after the calls of the history. -/
structure Ordered (c : RecordCache) (history : List Op) : Prop where
  sizes : ∀ it ∈ c.ll, it.size = size it.record
  used : c.used = total c.ll
  latest : ∀ it ∈ c.ll, lastPut history it.revision = some it.record
  recent : Recent history c.ll

variable {ll : List Item}

theorem Recent.nodup (h : Recent history ll) : (ll.map Item.revision).Nodup := by
  refine List.pairwise_map.mpr (h.imp fun hlt heq => ?_)
  rw [heq] at hlt
  exact lt_irrefl _ hlt

/-- One item, and the items of the other revisions. -/
theorem total_filter (h : (ll.map Item.revision).Nodup) {it : Item} (hit : it ∈ ll) :
    total ll = it.size + total (ll.filter fun x => x.revision ≠ it.revision) := by
  induction ll with
  | nil => cases hit
  | cons x ll ih =>
    obtain ⟨hx, hnodup⟩ := List.nodup_cons.mp h
    rcases List.mem_cons.mp hit with rfl | hit
    · have hrest : ll.filter (fun x => decide (x.revision ≠ it.revision)) = ll := by
        refine List.filter_eq_self.mpr fun y hy => ?_
        simp only [ne_eq, decide_not, Bool.not_eq_eq_eq_not, Bool.not_true, decide_eq_false_iff_not]
        exact fun heq => hx (heq ▸ List.mem_map_of_mem hy)
      rw [List.filter_cons_of_neg (by simp), hrest]
      rfl
    · have hne : x.revision ≠ it.revision := fun heq => hx (heq ▸ List.mem_map_of_mem hit)
      rw [List.filter_cons_of_pos (by simpa using hne)]
      show x.size + total ll = it.size + (x.size + total _)
      rw [ih hnodup hit]
      ring

theorem total_nonneg (h : ∀ it ∈ ll, it.size = size it.record) : 0 ≤ total ll := by
  refine List.sum_nonneg fun n hn => ?_
  obtain ⟨it, hit, rfl⟩ := List.mem_map.mp hn
  rw [h it hit]
  exact (size_pos it.record).le

theorem total_append (xs ys : List Item) : total (xs ++ ys) = total xs + total ys := by
  rw [total, List.map_append, List.sum_append]
  rfl

variable {c : RecordCache}

/-- The item that is found is the only one of its revision. -/
theorem find_eq_some {it : Item} (h : c.find r = some it) : it ∈ c.ll ∧ it.revision = r :=
  ⟨List.mem_of_find?_eq_some h, by simpa using List.find?_some h⟩

theorem find_eq_none (h : c.find r = none) : ∀ it ∈ c.ll, it.revision ≠ r := by
  intro it hit
  simpa using List.find?_eq_none.mp h it hit

/-! ## Putting an item in front -/

section Front

variable {ll : List Item} {it : Item}

theorem recent_front (h : Recent history ll) (huses : op.uses it.revision = true)
    (hothers : ∀ n, n ≠ it.revision → op.uses n = false) :
    Recent (op :: history) (moveToFront ll it) := by
  refine List.pairwise_cons.mpr ⟨fun x hx => ?_, ?_⟩
  · have hne : x.revision ≠ it.revision := by simpa using (List.mem_filter.mp hx).2
    exact lastUse_lt huses (hothers _ hne)
  · refine (h.sublist List.filter_sublist).imp_of_mem fun {x y} hx hy hlt => ?_
    have hxn : x.revision ≠ it.revision := by simpa using (List.mem_filter.mp hx).2
    have hyn : y.revision ≠ it.revision := by simpa using (List.mem_filter.mp hy).2
    rwa [lastUse_of_not_uses (hothers _ hxn), lastUse_of_not_uses (hothers _ hyn)]

/-- A call that uses none of the items leaves their order. -/
theorem recent_unused (h : Recent history ll) (hunused : ∀ x ∈ ll, op.uses x.revision = false) :
    Recent (op :: history) ll :=
  List.Pairwise.imp_of_mem (fun {x y} hx hy hlt => by
    rwa [lastUse_of_not_uses (hunused x hx), lastUse_of_not_uses (hunused y hy)]) h

end Front

/-! ## The loop -/

/-- What the loop leaves: the front of the list, down to the budget or to one item, with no item dropped
beyond need. -/
structure Trimmed (c c' : RecordCache) (gone : List Item) : Prop where
  budget : c'.budget = c.budget
  split : c.ll = c'.ll ++ gone
  used : c.used = c'.used + total gone
  front : c.ll ≠ [] → c'.ll ≠ []
  stops : 0 < c.budget → c'.used ≤ c.budget ∨ c'.ll.length ≤ 1
  needed : ∀ it ∈ gone.head?, 0 < c.budget ∧ c.budget < c'.used + it.size

theorem evict_spec (fuel : Nat) (c : RecordCache) (hfuel : c.ll.length ≤ fuel) :
    ∃ gone, Trimmed c (evict fuel c) gone := by
  induction fuel generalizing c with
  | zero =>
    refine ⟨[], rfl, by simp [evict], by simp [evict, total], fun h => h, fun _ => Or.inr ?_,
      fun it hit => by cases hit⟩
    exact hfuel.trans (Nat.zero_le 1)
  | succ fuel ih =>
    rw [evict]
    split
    · next hmore =>
      obtain ⟨hpos, hover, hlong⟩ := hmore
      have hne : c.ll ≠ [] := List.ne_nil_of_length_pos (by omega)
      obtain ⟨init, it, hll⟩ : ∃ init it, c.ll = init ++ [it] :=
        ⟨c.ll.dropLast, c.ll.getLast hne, (List.dropLast_append_getLast hne).symm⟩
      have hinit : init.length + 1 = c.ll.length := by rw [hll]; simp
      have hevict : c.evictOldest = { c with ll := init, used := c.used - it.size } := by
        simp [evictOldest, hll]
      obtain ⟨gone, htrim⟩ := ih c.evictOldest (by rw [hevict]; show init.length ≤ fuel; omega)
      rw [hevict] at htrim ⊢
      have hused : c.used - it.size = (evict fuel { c with ll := init, used := c.used - it.size }).used
        + total gone := htrim.used
      refine ⟨gone ++ [it], htrim.budget, ?_, ?_, fun _ => htrim.front ?_, htrim.stops, ?_⟩
      · rw [← List.append_assoc, ← htrim.split, hll]
      · have hone : total [it] = it.size := by simp [total]
        rw [total_append, hone]
        omega
      · exact List.ne_nil_of_length_pos (by show 0 < init.length; omega)
      · intro x hx
        cases gone with
        | nil =>
          cases hx
          have hzero : total [] = 0 := rfl
          refine ⟨hpos, ?_⟩
          show c.budget < _
          omega
        | cons y gone =>
          cases hx
          exact htrim.needed x rfl
    · next hstop =>
      refine ⟨[], rfl, (List.append_nil _).symm, by simp [total], fun h => h, fun hpos => ?_,
        fun it hit => by cases hit⟩
      by_contra hnot
      rw [not_or] at hnot
      exact hstop ⟨hpos, by omega, by omega⟩

/-! ## Every call keeps the order -/

namespace Ordered

variable {c : RecordCache}

theorem empty (budget : Int) : Ordered (new budget) [] :=
  ⟨fun _ h => absurd h List.not_mem_nil, rfl, fun _ h => absurd h List.not_mem_nil,
    List.Pairwise.nil⟩

theorem get (h : Ordered c history) (r : Nat) : Ordered (c.get r).1 (.get r :: history) := by
  unfold RecordCache.get
  split
  · next it hit =>
    obtain ⟨hmem, hrev⟩ := find_eq_some hit
    have hsub : ∀ x ∈ moveToFront c.ll it, x ∈ c.ll := fun x hx =>
      (mem_moveToFront hx).elim (fun heq => heq ▸ hmem) id
    refine ⟨fun x hx => h.sizes x (hsub x hx), ?_, fun x hx => h.latest x (hsub x hx),
      recent_front h.recent (by simp [Op.uses, hrev]) fun n hn => ?_⟩
    · exact h.used.trans (total_filter h.recent.nodup hmem)
    · simpa [Op.uses, ← hrev] using hn.symm
  · next hnone =>
    refine ⟨h.sizes, h.used, h.latest, recent_unused h.recent fun x hx => ?_⟩
    simpa [Op.uses] using (find_eq_none hnone x hx).symm

theorem remove (h : Ordered c history) (r : Nat) : Ordered (c.remove r) (.remove r :: history) := by
  unfold RecordCache.remove
  split
  · next it hit =>
    obtain ⟨hmem, -⟩ := find_eq_some hit
    refine ⟨fun x hx => h.sizes x (List.mem_of_mem_filter hx), ?_,
      fun x hx => h.latest x (List.mem_of_mem_filter hx),
      recent_unused (h.recent.sublist List.filter_sublist) fun _ _ => rfl⟩
    have htotal := total_filter h.recent.nodup hmem
    have hused := h.used
    show c.used - it.size = total (c.ll.filter fun x => x.revision ≠ it.revision)
    omega
  · exact ⟨h.sizes, h.used, h.latest, recent_unused h.recent fun _ _ => rfl⟩

/-- The front of an ordered list is ordered. -/
theorem trimmed {c' : RecordCache} (h : Ordered c history) {gone : List Item} (ht : Trimmed c c' gone) :
    Ordered c' history := by
  have hsub : ∀ x ∈ c'.ll, x ∈ c.ll := fun x hx => by
    rw [ht.split]
    exact List.mem_append_left _ hx
  refine ⟨fun x hx => h.sizes x (hsub x hx), ?_, fun x hx => h.latest x (hsub x hx), ?_⟩
  · have hused := h.used
    have hsplit := ht.used
    rw [ht.split, total_append] at hused
    omega
  · have hrecent := h.recent
    rw [ht.split] at hrecent
    exact (List.pairwise_append.mp hrecent).1

end Ordered

/-- The cache before the loop of `Put`. -/
def pushed (c : RecordCache) (r : Nat) (record : LogRecord) : RecordCache :=
  { c with
    used := c.used + size record - ((c.find r).elim 0 Item.size)
    ll := moveToFront c.ll ⟨r, record, size record⟩ }

theorem moveToFront_of_find_none (h : c.find r = none) (it : Item)
    (hit : it.revision = r) : moveToFront c.ll it = it :: c.ll := by
  refine congrArg (it :: ·) (List.filter_eq_self.mpr fun x hx => ?_)
  simpa [hit] using find_eq_none h x hx

/-- `Put` refuses a new record that is larger than the budget; otherwise it puts the record in front and
drops items. -/
theorem put_cases (c : RecordCache) (r : Nat) (record : LogRecord) :
    (c.find r = none ∧ 0 < c.budget ∧ c.budget < size record ∧ c.put r record = c) ∨
    ((c.find r = none → 0 < c.budget → size record ≤ c.budget) ∧
      ∃ gone, Trimmed (c.pushed r record) (c.put r record) gone) := by
  unfold put
  dsimp only
  split
  · next it hit =>
    have heq : ({ c with
        used := c.used + (size record - it.size)
        ll := moveToFront c.ll ⟨r, record, size record⟩ } : RecordCache) = c.pushed r record := by
      rw [pushed, hit, Option.elim, add_sub_assoc]
    refine Or.inr ⟨fun hnone => ?_, ?_⟩
    · rw [hit] at hnone
      cases hnone
    · rw [heq]
      refine evict_spec _ _ ?_
      -- One item of the list is the one that moves to its front.
      obtain ⟨hmem, hrev⟩ := find_eq_some hit
      show (moveToFront c.ll ⟨r, record, size record⟩).length ≤ _
      rw [moveToFront, List.length_cons, ← List.countP_eq_length_filter]
      exact List.countP_lt_length_iff.mpr ⟨it, hmem, by simp [hrev]⟩
  · next hnone =>
    split
    · next hrefused => exact Or.inl ⟨hnone, hrefused.1, hrefused.2, rfl⟩
    · next hfits =>
      have heq : ({ c with
          used := c.used + size record
          ll := ⟨r, record, size record⟩ :: c.ll } : RecordCache) = c.pushed r record := by
        rw [pushed, hnone, Option.elim, sub_zero, moveToFront_of_find_none hnone _ rfl]
      refine Or.inr ⟨fun _ hpos => ?_, ?_⟩
      · by_contra hnot
        exact hfits ⟨hpos, by omega⟩
      · rw [heq]
        refine evict_spec _ _ ?_
        rw [← heq]
        exact le_refl _

theorem put_budget (c : RecordCache) (r : Nat) (record : LogRecord) :
    (c.put r record).budget = c.budget := by
  rcases c.put_cases r record with ⟨-, -, -, heq⟩ | ⟨-, gone, htrim⟩
  · rw [heq]
  · exact htrim.budget

namespace Ordered

variable {c : RecordCache}

section

variable (h : Ordered c history)
include h

theorem pushed (r : Nat) (record : LogRecord) :
    Ordered (c.pushed r record) (.put r record :: history) := by
  refine ⟨fun x hx => ?_, ?_, fun x hx => ?_, recent_front h.recent (by simp [Op.uses]) fun n hn => ?_⟩
  · rcases mem_moveToFront hx with rfl | hx
    · rfl
    · exact h.sizes x hx
  · show c.used + size record - (c.find r).elim 0 Item.size =
      size record + total (c.ll.filter fun x => x.revision ≠ r)
    have hused := h.used
    cases hfind : c.find r with
    | none =>
      have hall : c.ll.filter (fun x => decide (x.revision ≠ r)) = c.ll :=
        List.filter_eq_self.mpr fun x hx => by simpa using find_eq_none hfind x hx
      rw [hall, Option.elim]
      omega
    | some it =>
      obtain ⟨hmem, hrev⟩ := find_eq_some hfind
      have htotal := total_filter h.recent.nodup hmem
      rw [hrev] at htotal
      rw [Option.elim]
      omega
  · rcases List.mem_cons.mp hx with rfl | hx
    · rw [lastPut, if_pos rfl]
    · have hne : x.revision ≠ r := by simpa using (List.mem_filter.mp hx).2
      rw [lastPut, if_neg hne.symm]
      exact h.latest x (List.mem_of_mem_filter hx)
  · simpa [Op.uses] using hn.symm

theorem put (r : Nat) (record : LogRecord) :
    Ordered (c.put r record) (.put r record :: history) := by
  rcases c.put_cases r record with ⟨hnone, -, -, heq⟩ | ⟨-, gone, htrim⟩
  · rw [heq]
    refine ⟨h.sizes, h.used, fun x hx => ?_, recent_unused h.recent fun x hx => ?_⟩
    · rw [lastPut, if_neg (find_eq_none hnone x hx).symm]
      exact h.latest x hx
    · simpa [Op.uses] using (find_eq_none hnone x hx).symm
  · exact (h.pushed r record).trimmed htrim

/-! ## The budget -/

/-- `Put` keeps the bound unless it replaces a record by one that is larger than the budget. -/
theorem put_used_le {record : LogRecord} (hpos : 0 < c.budget) (hle : c.used ≤ c.budget)
    (hfits : c.find r ≠ none → size record ≤ c.budget) : (c.put r record).used ≤ c.budget := by
  rcases c.put_cases r record with ⟨-, -, -, heq⟩ | ⟨hnew, gone, htrim⟩
  · rw [heq]
    exact hle
  · have hord := (h.pushed r record).trimmed htrim
    have hsize : size record ≤ c.budget := by
      by_cases hnone : c.find r = none
      · exact hnew hnone hpos
      · exact hfits hnone
    rcases htrim.stops hpos with hle' | hone
    · exact hle'
    · -- Only the record itself is left.
      have hne := htrim.front (List.cons_ne_nil _ _)
      obtain ⟨it, hit⟩ : ∃ it, (c.put r record).ll = [it] :=
        List.length_eq_one_iff.mp (by have := List.length_pos_of_ne_nil hne; omega)
      have hsplit := htrim.split
      rw [hit] at hsplit
      obtain ⟨rfl, -⟩ := List.cons.inj hsplit
      rw [hord.used, hit]
      simpa [total] using hsize

/-- A record that is larger than the budget and replaces another one stays. -/
theorem put_lt_used {record : LogRecord} (hcached : c.find r ≠ none)
    (hlarge : c.budget < size record) : c.budget < (c.put r record).used := by
  rcases c.put_cases r record with ⟨hnone, -⟩ | ⟨-, gone, htrim⟩
  · exact absurd hnone hcached
  · have hord := (h.pushed r record).trimmed htrim
    have hne := htrim.front (List.cons_ne_nil _ _)
    obtain ⟨it, rest, hit⟩ := List.exists_cons_of_ne_nil hne
    have hsplit := htrim.split
    rw [hit] at hsplit
    obtain ⟨rfl, -⟩ := List.cons.inj hsplit
    have hrest : 0 ≤ total rest := total_nonneg fun x hx => hord.sizes x (by
      rw [hit]
      exact List.mem_cons_of_mem _ hx)
    have hused := hord.used
    rw [hit] at hused
    change _ = size record + total rest at hused
    omega

theorem remove_used_le (r : Nat) : (c.remove r).used ≤ c.used := by
  unfold RecordCache.remove
  split
  · next it hit =>
    have hsize := h.sizes it (find_eq_some hit).1
    have hpos := size_pos it.record
    show c.used - it.size ≤ c.used
    omega
  · exact le_refl _

end

end Ordered

/-! ## Evictions -/

/-- What `Put` evicts are the records used longest ago, and with the last of them the cache would have been
too large. -/
structure EvictsLeast (c : RecordCache) (history : List Op) (r : Nat) (record : LogRecord) : Prop where
  least : ∀ x ∈ c.ll.map Item.revision, x ∉ (c.put r record).ll.map Item.revision →
    ∀ y ∈ (c.put r record).ll.map Item.revision,
      lastUse history x < lastUse (.put r record :: history) y
  needed : ∀ x ∈ c.ll.map Item.revision, x ∉ (c.put r record).ll.map Item.revision →
    (∀ y ∈ c.ll.map Item.revision, y ∉ (c.put r record).ll.map Item.revision →
      lastUse history y ≤ lastUse history x) →
    ∀ held, lastPut history x = some held →
      0 < c.budget ∧ c.budget < (c.put r record).used + size held

theorem Ordered.evictsLeast (h : Ordered c history) (r : Nat) (record : LogRecord) :
    EvictsLeast c history r record := by
  rcases c.put_cases r record with ⟨-, -, -, heq⟩ | ⟨-, gone, htrim⟩
  · have hkept : ∀ x ∈ c.ll.map Item.revision, x ∈ (c.put r record).ll.map Item.revision := by
      rw [heq]
      exact fun x hx => hx
    exact ⟨fun x hx hnot => absurd (hkept x hx) hnot, fun x hx hnot => absurd (hkept x hx) hnot⟩
  have hpushed := h.pushed r record
  have hrecent := hpushed.recent
  rw [htrim.split] at hrecent
  obtain ⟨-, hgone, hcross⟩ := List.pairwise_append.mp hrecent
  -- The record itself is in front and stays.
  have hfront : r ∈ (c.put r record).ll.map Item.revision := by
    obtain ⟨it, rest, hit⟩ := List.exists_cons_of_ne_nil (htrim.front (List.cons_ne_nil _ _))
    have hsplit := htrim.split
    rw [hit] at hsplit
    obtain ⟨rfl, -⟩ := List.cons.inj hsplit
    rw [hit]
    exact List.mem_cons_self
  have hdropped : ∀ x, x ∈ c.ll.map Item.revision ∧ x ∉ (c.put r record).ll.map Item.revision →
      ∃ it ∈ gone, it.revision = x ∧ it ∈ c.ll := by
    rintro x ⟨hx, hnot⟩
    obtain ⟨it, hit, rfl⟩ := List.mem_map.mp hx
    have hne : it.revision ≠ r := fun heq => hnot (heq ▸ hfront)
    have hmem : it ∈ (c.pushed r record).ll :=
      List.mem_cons_of_mem _ (List.mem_filter.mpr ⟨hit, by simpa using hne⟩)
    rw [htrim.split] at hmem
    rcases List.mem_append.mp hmem with hkept | hgone
    · exact absurd (List.mem_map_of_mem hkept) hnot
    · exact ⟨it, hgone, rfl, hit⟩
  have hsame : ∀ x, x ≠ r → lastUse (.put r record :: history) x = lastUse history x := fun x hx =>
    lastUse_of_not_uses (by simpa [Op.uses] using hx.symm)
  refine ⟨fun x hx hnot y hy => ?_, fun x hx hnot hmost held hheld => ?_⟩
  · obtain ⟨it, hit, rfl, -⟩ := hdropped x ⟨hx, hnot⟩
    obtain ⟨kept, hkept, rfl⟩ := List.mem_map.mp hy
    have hlt := hcross kept hkept it hit
    have hne : it.revision ≠ r := fun heq => hnot (heq ▸ hfront)
    rwa [hsame it.revision hne] at hlt
  · obtain ⟨it, hit, rfl, hitll⟩ := hdropped x ⟨hx, hnot⟩
    obtain ⟨first, rest, rfl⟩ := List.exists_cons_of_ne_nil (List.ne_nil_of_mem hit)
    -- The first of the dropped items was used last, so it is this one.
    have hfirst : it = first := by
      rcases List.mem_cons.mp hit with heq | hrest
      · exact heq
      · have hlt := (List.pairwise_cons.mp hgone).1 it hrest
        have hkeep : first.revision ∉ (c.put r record).ll.map Item.revision := by
          intro hin
          obtain ⟨kept, hkept, heq⟩ := List.mem_map.mp hin
          have hbad := hcross kept hkept first List.mem_cons_self
          rw [heq] at hbad
          exact absurd hbad (lt_irrefl _)
        have hne : first.revision ≠ r := fun heq => hkeep (heq ▸ hfront)
        have hold : first ∈ c.ll := by
          have hmem : first ∈ (c.pushed r record).ll := by
            rw [htrim.split]
            exact List.mem_append_right _ List.mem_cons_self
          rcases mem_moveToFront hmem with heq | hold
          · exact absurd (congrArg Item.revision heq) hne
          · exact hold
        have hle := hmost first.revision (List.mem_map_of_mem hold) hkeep
        have hne' : it.revision ≠ r := fun heq => hnot (heq ▸ hfront)
        rw [hsame _ hne, hsame _ hne'] at hlt
        omega
    subst hfirst
    obtain ⟨hpos, hover⟩ := htrim.needed it rfl
    have hsize := h.sizes it hitll
    have hrecord := h.latest it hitll
    rw [hheld] at hrecord
    rw [Option.some.inj hrecord, ← hsize]
    exact ⟨hpos, hover⟩

end RecordCache

end CloudEtcd
