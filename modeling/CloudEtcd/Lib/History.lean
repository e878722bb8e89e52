/-
# CloudEtcd.Lib.History — stamped records of keyed events, and what they say about a key.

A history is a list of stamped records in ascending stamp order; each record is a list of events,
each on a key.  The state of a key at a point is decided by the last event on it at or below the
point (`lastEvent`).  The lemmas say when that event stays the same: when records are appended
above the point (`lastEvent_append`), and when the point moves over stamps that do not write the
key (`lastEvent_eq_of_quiet`).
-/
import Mathlib.Tactic

/-- Records of events, each event on a key. -/
class Keyed (ρ : Type*) (ε κ : outParam Type*) where
  events : ρ → List ε
  key : ε → κ

namespace History

variable {ρ ε κ : Type*} [Keyed ρ ε κ]

open Keyed

/-- Some event of the record is on the key. -/
def Touches (x : ρ) (k : κ) : Prop := ∃ e ∈ events x, key ρ e = k

/-- The record with this stamp has an event on the key. -/
def Writes (h : List (ℕ × ρ)) (k : κ) (r : ℕ) : Prop := ∃ x, (r, x) ∈ h ∧ Touches x k

/-- Stamps ascend, and no record has two events on one key. -/
structure WellFormed (h : List (ℕ × ρ)) : Prop where
  ascending : h.Pairwise fun a b => a.1 < b.1
  distinct : ∀ p ∈ h, ((events p.2).map (key ρ)).Nodup

/-- The record with this stamp has two events on one key. -/
def Repeats (h : List (ℕ × ρ)) (r : ℕ) : Prop := ∃ x, (r, x) ∈ h ∧ ¬ ((events x).map (key ρ)).Nodup

section Decidable

variable [DecidableEq κ]

instance (x : ρ) (k : κ) : Decidable (Touches x k) :=
  inferInstanceAs (Decidable (∃ e ∈ events x, key ρ e = k))

/-- The events on a key in the records with stamps up to `q`, in order. -/
def eventsOn (h : List (ℕ × ρ)) (k : κ) (q : ℕ) : List (ℕ × ε) :=
  (h.filter fun p => p.1 ≤ q).flatMap fun p =>
    ((events p.2).filter fun e => key ρ e = k).map fun e => (p.1, e)

/-- The last event on a key in the records with stamps up to `q`. -/
def lastEvent (h : List (ℕ × ρ)) (k : κ) (q : ℕ) : Option (ℕ × ε) := (eventsOn h k q).getLast?

end Decidable

/-! ## Well-formed histories -/

variable {h : List (ℕ × ρ)} {r : ℕ}

/-- A stamp has one record. -/
theorem unique_of_ascending (hasc : h.Pairwise fun a b => a.1 < b.1) {x y : ρ}
    (hx : (r, x) ∈ h) (hy : (r, y) ∈ h) : x = y := by
  have hnodup : (h.map Prod.fst).Nodup := List.pairwise_map.mpr (hasc.imp Nat.ne_of_lt)
  exact congrArg Prod.snd (List.inj_on_of_nodup_map hnodup hx hy rfl)

theorem WellFormed.unique (hw : WellFormed h) {x y : ρ} (hx : (r, x) ∈ h) (hy : (r, y) ∈ h) :
    x = y :=
  unique_of_ascending hw.ascending hx hy

theorem WellFormed.not_repeats (hw : WellFormed h) : ¬ Repeats h r :=
  fun ⟨_, hx, hnot⟩ => hnot (hw.distinct _ hx)

variable {h' : List (ℕ × ρ)}

theorem WellFormed.sublist (hw : WellFormed h) (hs : h'.Sublist h) : WellFormed h' :=
  ⟨hw.ascending.sublist hs, fun p hp => hw.distinct p (hs.subset hp)⟩

/-- A record without repeated keys has one event on each key it touches. -/
theorem event_unique {x : ρ} (hd : ((events x).map (key ρ)).Nodup) {e e' : ε} (he : e ∈ events x)
    (he' : e' ∈ events x) (hk : key ρ e = key ρ e') : e = e' :=
  List.inj_on_of_nodup_map hd he he' hk

variable {k : κ}

theorem writes_append : Writes (h ++ h') k r ↔ Writes h k r ∨ Writes h' k r := by
  simp only [Writes, List.mem_append]
  constructor
  · rintro ⟨x, hx | hx, ht⟩
    · exact Or.inl ⟨x, hx, ht⟩
    · exact Or.inr ⟨x, hx, ht⟩
  · rintro (⟨x, hx, ht⟩ | ⟨x, hx, ht⟩)
    · exact ⟨x, Or.inl hx, ht⟩
    · exact ⟨x, Or.inr hx, ht⟩

/-! ## The last event on a key -/

section LastEvent

variable [DecidableEq κ] {q : ℕ}

theorem mem_eventsOn {e : ε} :
    (r, e) ∈ eventsOn h k q ↔ ∃ x, (r, x) ∈ h ∧ r ≤ q ∧ e ∈ events x ∧ key ρ e = k := by
  simp only [eventsOn, List.mem_flatMap, List.mem_filter, decide_eq_true_eq, List.mem_map]
  constructor
  · rintro ⟨⟨r', x⟩, ⟨hx, hq⟩, e', ⟨he, hk⟩, heq⟩
    cases heq
    exact ⟨x, hx, hq, he, hk⟩
  · rintro ⟨x, hx, hq, he, hk⟩
    exact ⟨(r, x), ⟨hx, hq⟩, e, ⟨he, hk⟩, rfl⟩

theorem lastEvent_eq_none_iff : lastEvent h k q = none ↔ ∀ r ≤ q, ¬ Writes h k r := by
  rw [lastEvent, List.getLast?_eq_none_iff, List.eq_nil_iff_forall_not_mem]
  constructor
  · rintro hn r hr ⟨x, hx, e, he, hk⟩
    exact hn (r, e) (mem_eventsOn.mpr ⟨x, hx, hr, he, hk⟩)
  · rintro hn ⟨r, e⟩ hmem
    obtain ⟨x, hx, hr, he, hk⟩ := mem_eventsOn.mp hmem
    exact hn r hr ⟨x, hx, e, he, hk⟩

theorem length_filter_key_le_one {x : ρ} (hd : ((events x).map (key ρ)).Nodup) (k : κ) :
    ((events x).filter fun e => key ρ e = k).length ≤ 1 := by
  rw [← List.length_map (f := key ρ)]
  have hnd : (((events x).filter fun e => key ρ e = k).map (key ρ)).Nodup :=
    hd.sublist (List.filter_sublist.map _)
  have hall : ∀ y ∈ ((events x).filter fun e => key ρ e = k).map (key ρ), y = k := by
    intro y hy
    obtain ⟨e, he, rfl⟩ := List.mem_map.mp hy
    simpa using (List.mem_filter.mp he).2
  rw [List.eq_replicate_of_mem hall] at hnd ⊢
  simpa using List.nodup_replicate.mp hnd

/-- The last event on a key in a record. -/
def lastOn (x : ρ) (k : κ) : Option ε := ((events x).filter fun e => key ρ e = k).getLast?

theorem lastOn_eq_none_iff {x : ρ} : lastOn x k = none ↔ ¬ Touches x k := by
  simp [lastOn, Touches]

theorem mem_of_lastOn {x : ρ} {e : ε} (hlast : lastOn x k = some e) :
    e ∈ events x ∧ key ρ e = k := by
  simpa using List.mem_filter.mp (List.mem_of_getLast? hlast)

/-- In a record without repeated keys it is the only one. -/
theorem lastOn_eq_some_iff {x : ρ} (hd : ((events x).map (key ρ)).Nodup) {e : ε} :
    lastOn x k = some e ↔ e ∈ events x ∧ key ρ e = k := by
  refine ⟨mem_of_lastOn, fun ⟨he, hk⟩ => ?_⟩
  cases hlast : lastOn x k with
  | none => exact absurd ⟨e, he, hk⟩ (lastOn_eq_none_iff.mp hlast)
  | some e' =>
    obtain ⟨he', hk'⟩ := mem_of_lastOn hlast
    rw [event_unique hd he he' (hk.trans hk'.symm)]

theorem lastEvent_append_or (h h' : List (ℕ × ρ)) (k : κ) (q : ℕ) :
    lastEvent (h ++ h') k q = (lastEvent h' k q).or (lastEvent h k q) := by
  simp only [lastEvent, eventsOn, List.filter_append, List.flatMap_append, List.getLast?_append]

theorem lastEvent_singleton (p : ℕ × ρ) (k : κ) (q : ℕ) :
    lastEvent [p] k q = if p.1 ≤ q then (lastOn p.2 k).map fun e => (p.1, e) else none := by
  by_cases hp : p.1 ≤ q <;> simp [lastEvent, eventsOn, lastOn, hp, List.getLast?_map]

/-- The last event is the last one of the record with the largest writing stamp. -/
theorem lastEvent_eq_some_iff_of_ascending (hasc : h.Pairwise fun a b => a.1 < b.1) {e : ε} :
    lastEvent h k q = some (r, e) ↔
      (∃ x, (r, x) ∈ h ∧ r ≤ q ∧ lastOn x k = some e) ∧ ∀ r' ≤ q, Writes h k r' → r' ≤ r := by
  induction h using List.reverseRecOn with
  | nil => simp [lastEvent, eventsOn]
  | append_singleton h p ih =>
    obtain ⟨hasc, -, hlt⟩ := List.pairwise_append.mp hasc
    replace hlt : ∀ a ∈ h, a.1 < p.1 := fun a ha => hlt a ha p List.mem_cons_self
    rw [lastEvent_append_or, lastEvent_singleton]
    -- The last record decides if it is not above the point and touches the key.
    by_cases hdecides : p.1 ≤ q ∧ Touches p.2 k
    · obtain ⟨hle, htouch⟩ := hdecides
      obtain ⟨e', hlast⟩ := Option.ne_none_iff_exists'.mp fun hnone =>
        lastOn_eq_none_iff.mp hnone htouch
      rw [if_pos hle, hlast, Option.map_some, Option.some_or, Option.some.injEq, Prod.mk.injEq]
      constructor
      · rintro ⟨rfl, rfl⟩
        refine ⟨⟨p.2, by simp, hle, hlast⟩, ?_⟩
        rintro r' - ⟨x, hx, -⟩
        rcases List.mem_append.mp hx with hx | hx
        · exact (hlt _ hx).le
        · exact (congrArg Prod.fst (List.mem_singleton.mp hx)).le
      · rintro ⟨⟨x, hx, -, hlast'⟩, hmax⟩
        have hge := hmax p.1 hle ⟨p.2, by simp, htouch⟩
        rcases List.mem_append.mp hx with hx | hx
        · exact absurd (hlt _ hx) (not_lt.mpr hge)
        · obtain rfl := List.mem_singleton.mp hx
          exact ⟨rfl, Option.some.inj (hlast.symm.trans hlast')⟩
    · have hquiet : p.1 ≤ q → lastOn p.2 k = none := fun hle =>
        lastOn_eq_none_iff.mpr fun htouch => hdecides ⟨hle, htouch⟩
      have hnone : (if p.1 ≤ q then (lastOn p.2 k).map fun e => (p.1, e) else none) = none := by
        split
        · next hle => rw [hquiet hle, Option.map_none]
        · rfl
      have hwrites : ∀ r' ≤ q, Writes (h ++ [p]) k r' ↔ Writes h k r' := by
        intro r' hr'
        refine writes_append.trans (or_iff_left ?_)
        rintro ⟨x, hx, htouch⟩
        obtain rfl := List.mem_singleton.mp hx
        exact hdecides ⟨hr', htouch⟩
      rw [hnone, Option.none_or, ih hasc]
      refine and_congr (exists_congr fun x => ?_) (forall₂_congr fun r' hr' => by rw [hwrites r' hr'])
      refine ⟨fun ⟨hx, hrest⟩ => ⟨List.mem_append_left _ hx, hrest⟩, fun ⟨hx, hr, hlast⟩ => ?_⟩
      refine ⟨(List.mem_append.mp hx).resolve_right fun hx => ?_, hr, hlast⟩
      obtain rfl := List.mem_singleton.mp hx
      rw [hquiet hr] at hlast
      cases hlast

/-- The last event is the one at the largest writing stamp. -/
theorem lastEvent_eq_some_iff (hw : WellFormed h) {e : ε} :
    lastEvent h k q = some (r, e) ↔
      (∃ x, (r, x) ∈ h ∧ r ≤ q ∧ e ∈ events x ∧ key ρ e = k) ∧
        ∀ r' ≤ q, Writes h k r' → r' ≤ r := by
  rw [lastEvent_eq_some_iff_of_ascending hw.ascending]
  refine and_congr_left fun _ => exists_congr fun x => ?_
  refine and_congr_right fun hx => and_congr_right fun _ => ?_
  exact lastOn_eq_some_iff (hw.distinct _ hx)

/-- A last event is an event on its key, and no later record up to the point is on the key. -/
theorem lastEvent_spec (hasc : h.Pairwise fun a b => a.1 < b.1) {e : ε}
    (hlast : lastEvent h k q = some (r, e)) :
    (∃ x, (r, x) ∈ h ∧ r ≤ q ∧ e ∈ events x ∧ key ρ e = k) ∧
      ∀ r' ≤ q, Writes h k r' → r' ≤ r := by
  obtain ⟨⟨x, hx, hr, hon⟩, hmax⟩ := (lastEvent_eq_some_iff_of_ascending hasc).mp hlast
  exact ⟨⟨x, hx, hr, mem_of_lastOn hon⟩, hmax⟩

/-- The largest writing stamp up to a point has a last event. -/
theorem exists_lastEvent (hasc : h.Pairwise fun a b => a.1 < b.1) (hwr : Writes h k r) (hr : r ≤ q)
    (hmax : ∀ r' ≤ q, Writes h k r' → r' ≤ r) : ∃ e, lastEvent h k q = some (r, e) := by
  obtain ⟨x, hx, htouch⟩ := hwr
  obtain ⟨e, hon⟩ := Option.ne_none_iff_exists'.mp fun hnone => lastOn_eq_none_iff.mp hnone htouch
  exact ⟨e, (lastEvent_eq_some_iff_of_ascending hasc).mpr ⟨⟨x, hx, hr, hon⟩, hmax⟩⟩

/-- A last event is also the last at every point between its stamp and the point. -/
theorem lastEvent_of_le (hasc : h.Pairwise fun a b => a.1 < b.1) {e : ε} {q' : ℕ}
    (hlast : lastEvent h k q = some (r, e)) (hle : q' ≤ q) (hr : r ≤ q') :
    lastEvent h k q' = some (r, e) := by
  rw [lastEvent_eq_some_iff_of_ascending hasc] at hlast ⊢
  obtain ⟨⟨x, hx, -, hon⟩, hmax⟩ := hlast
  exact ⟨⟨x, hx, hr, hon⟩, fun r' hr' hwr => hmax r' (hr'.trans hle) hwr⟩

/-- Two histories with the same records on a key, up to the point, have the same last event on it. -/
theorem lastEvent_congr (hasc : h.Pairwise fun a b => a.1 < b.1)
    (hasc' : h'.Pairwise fun a b => a.1 < b.1)
    (hsame : ∀ r ≤ q, ∀ x, Touches x k → ((r, x) ∈ h ↔ (r, x) ∈ h')) :
    lastEvent h k q = lastEvent h' k q := by
  have hwrites : ∀ r ≤ q, Writes h k r ↔ Writes h' k r := by
    intro r hr
    constructor
    · rintro ⟨x, hx, ht⟩
      exact ⟨x, (hsame r hr x ht).mp hx, ht⟩
    · rintro ⟨x, hx, ht⟩
      exact ⟨x, (hsame r hr x ht).mpr hx, ht⟩
  cases hl : lastEvent h' k q with
  | none =>
    rw [lastEvent_eq_none_iff] at hl ⊢
    exact fun r hr hwr => hl r hr ((hwrites r hr).mp hwr)
  | some p =>
    obtain ⟨r, e⟩ := p
    rw [lastEvent_eq_some_iff_of_ascending hasc'] at hl
    rw [lastEvent_eq_some_iff_of_ascending hasc]
    obtain ⟨⟨x, hx, hr, hon⟩, hmax⟩ := hl
    exact ⟨⟨x, (hsame r hr x ⟨e, mem_of_lastOn hon⟩).mpr hx, hr, hon⟩,
      fun r' hr' hwr => hmax r' hr' ((hwrites r' hr').mp hwr)⟩

/-- Records above the point do not matter. -/
theorem lastEvent_append (hgt : ∀ p ∈ h', q < p.1) (k : κ) :
    lastEvent (h ++ h') k q = lastEvent h k q := by
  have hnil : h'.filter (fun p => decide (p.1 ≤ q)) = [] := by
    rw [List.filter_eq_nil_iff]
    intro p hp
    simpa using hgt p hp
  rw [lastEvent, lastEvent, eventsOn, eventsOn, List.filter_append, hnil, List.append_nil]

/-- Moving the point over stamps that do not write the key changes nothing. -/
theorem lastEvent_eq_of_quiet (hasc : h.Pairwise fun a b => a.1 < b.1) {q' : ℕ} (hle : q ≤ q')
    (hquiet : ∀ r, q < r → r ≤ q' → ¬ Writes h k r) : lastEvent h k q' = lastEvent h k q := by
  have hback : ∀ r ≤ q', Writes h k r → r ≤ q := by
    intro r hr hwr
    by_contra hlt
    exact hquiet r (not_le.mp hlt) hr hwr
  cases hl : lastEvent h k q with
  | none =>
    rw [lastEvent_eq_none_iff] at hl ⊢
    exact fun r hr hwr => hl r (hback r hr hwr) hwr
  | some p =>
    obtain ⟨r, e⟩ := p
    rw [lastEvent_eq_some_iff_of_ascending hasc] at hl ⊢
    obtain ⟨⟨x, hx, hr, hon⟩, hmax⟩ := hl
    exact ⟨⟨x, hx, hr.trans hle, hon⟩, fun r' hr' hwr => hmax r' (hback r' hr' hwr) hwr⟩

end LastEvent

end History
