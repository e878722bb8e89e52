/-
# CloudEtcd.Storage.SnapshotReads — what the operations of a transaction read.

A storage `Tracks` the history if its index agrees with it and the log still holds the record behind
every indexed revision.  A lookup then finds the record of the key's last write, or nothing if below the
compaction point the key's entry moved on (`seen_eq_stateAt_iff`), and takes the first event on the key in
it.  `ReadsBack` says that this event leaves the key in the state that the record leaves it in.

In a `Coherent` storage no record writes a key twice, so every operation sees `seen`: the state of the key
in the history, or nothing.
-/
import CloudEtcd.Storage.IndexHistory

namespace CloudEtcd

open History MemoryStorage

/-- The index agrees with the history, and the log answers for every indexed revision. -/
structure Tracks (hist : LogHistory) (m : MemoryStorage) (log : LogReader) : Prop where
  ascending : hist.Pairwise fun p p' => p.1 < p'.1
  compacted_le : m.compacted ≤ m.applied
  index : IndexInv hist m.applied m.compacted m.revisions
  reads : ∀ k, ∀ r ∈ m.revisions.revisionsOf k, ∃ x, (r, x) ∈ hist ∧ log r = .ok x

/-- The same for records that write no key twice. -/
structure Coherent (hist : LogHistory) (m : MemoryStorage) (log : LogReader) : Prop extends
    Tracks hist m log where
  wellFormed : WellFormed hist

/-- The event that a lookup takes from the record leaves the key in the state that the record does. -/
def ReadsBack (x : LogRecord) (k : Bytes) : Prop := liveKv (findEvent x k) = liveKv (lastOn x k)

instance ReadsBack.decidable (x : LogRecord) (k : Bytes) : Decidable (ReadsBack x k) :=
  inferInstanceAs (Decidable (_ = _))

variable {req : RangeRequest}

namespace MemoryStorage

/-- The `KeyValue` that a lookup at revision `q` leads to. -/
def seen (m : MemoryStorage) (hist : LogHistory) (q : Nat) (k : Bytes) : Option KeyValue :=
  if (m.revisions.getLatestRevisionByKey k q).isSome then stateAt hist q k else none

theorem seen_cases (m : MemoryStorage) (hist : LogHistory) (q : Nat) (k : Bytes) :
    m.seen hist q k = stateAt hist q k ∨ m.seen hist q k = none := by
  unfold seen
  split
  · exact Or.inl rfl
  · exact Or.inr rfl

/-- A lookup of the key at revision `q` leads to its state there: no compaction has passed a later write
of a key that exists at `q`, and if the index still has the key's last write, its record reads back. -/
structure Readable (m : MemoryStorage) (hist : LogHistory) (q : Nat) (k : Bytes) : Prop where
  notPassed : ¬ (stateAt hist q k ≠ none ∧ ∃ r, q < r ∧ r ≤ m.compacted ∧ Writes hist k r)
  readsBack : ∀ p ∈ hist, p.1 ∈ m.revisions.revisionsOf k →
    (∃ e, lastEvent hist k q = some (p.1, e)) → ReadsBack p.2 k

/-- A request never reads above the snapshot. -/
theorem readAt_le {m : MemoryStorage} {snapshot q : Nat}
    (h : m.readAt snapshot req = .ok q) : q ≤ snapshot := by
  unfold readAt checkReadRevision at h
  split at h
  · split at h
    · cases h
    · split at h
      · cases h
      · next hle =>
        cases h
        exact not_lt.mp hle
  · cases h
    exact le_rfl

end MemoryStorage

/-! ## Lookups that find their event -/

/-- The log answers for every indexed revision with a record that touches the key. -/
def MemoryStorage.Fetches (m : MemoryStorage) (log : LogReader) : Prop :=
  ∀ k, ∀ r ∈ m.revisions.revisionsOf k, ∃ x, log r = .ok x ∧ Touches x k

section Fetches

variable {m : MemoryStorage} {log : LogReader}

theorem MemoryStorage.Fetches.record (h : m.Fetches log) {k : Bytes} {q r : Nat}
    (hl : m.revisions.getLatestRevisionByKey k q = some r) :
    ∃ x e, log r = .ok x ∧ findEvent x k = some e := by
  obtain ⟨x, hx, htouch⟩ := h k r (Timeline.mem_of_latest hl)
  obtain ⟨e, he⟩ := findEvent_isSome_iff.mpr htouch
  exact ⟨x, e, hx, he⟩

/-- The compares, `put` and `delete` can fetch the event they ask for. -/
theorem MemoryStorage.Fetches.prevEvent (h : m.Fetches log) (k : Bytes) (q : Nat) :
    ∃ event, m.prevEvent log k q = .ok event := by
  unfold MemoryStorage.prevEvent
  split
  · exact ⟨none, rfl⟩
  · next r hl =>
    obtain ⟨x, e, hread, hfind⟩ := h.record hl
    exact ⟨some e, by simp [fetchEvent, hread, hfind, Except.map]⟩

theorem MemoryStorage.Fetches.getKey (h : m.Fetches log) (req : RangeRequest) (k : Bytes) (q : Nat) :
    ∃ resp, m.getKey log req k q = .ok resp := by
  unfold MemoryStorage.getKey
  dsimp only
  split
  · exact ⟨_, rfl⟩
  · next r hl =>
    obtain ⟨x, e, hread, hfind⟩ := h.record hl
    simp only [hread, hfind]
    split <;> exact ⟨_, rfl⟩

/-- The response of `Get` for what it sees. -/
def getResponse (req : RangeRequest) (q : Nat) : Option KeyValue → RangeResponse
  | none => { header := createHeader q }
  | some kv =>
    { header := createHeader q
      kvs := [viewKv req kv]
      count := 1
      more := req.limit == 1 }

theorem getResponse_kvs (req : RangeRequest) (q : Nat) (kv : Option KeyValue) :
    (getResponse req q kv).kvs = (kv.map (viewKv req)).toList := by
  cases kv <;> rfl

/-- `Get` returns what the event it fetches leaves behind. -/
theorem MemoryStorage.Fetches.get_eq (h : m.Fetches log) {k : Bytes} {q snapshot : Nat}
    {event : Option Event} (hkey : req.key = some k)
    (hend : req.rangeEnd = none) (hcount : req.countOnly = false)
    (hat : m.readAt snapshot req = .ok q) (hprev : m.prevEvent log k q = .ok event) :
    m.get log snapshot req = .ok (getResponse req q (liveKv event)) := by
  have hkeyEq : m.getKey log req k q = .ok (getResponse req q (liveKv event)) := by
    unfold MemoryStorage.getKey
    unfold MemoryStorage.prevEvent at hprev
    cases hl : m.revisions.getLatestRevisionByKey k q with
    | none =>
      rw [hl] at hprev
      cases hprev
      rfl
    | some r =>
      obtain ⟨x, e, hlog, hfind⟩ := h.record hl
      simp only [hl, fetchEvent, hlog, hfind, Except.map, Except.ok.injEq] at hprev
      subst hprev
      cases htype : e.type <;>
        simp [hlog, hfind, htype, liveKv, getResponse]
  simp [get, hkey, hend, hat, hcount, hkeyEq, bind, Except.bind]

end Fetches

section Tracks

variable {hist : LogHistory} {m : MemoryStorage} {log : LogReader} {k : Bytes} {q : Nat}

theorem stateAt_of_last {r : Nat} {e : Event} (hlast : lastEvent hist k q = some (r, e)) :
    stateAt hist q k = liveKv (some e) := by
  simp [stateAt, hlast]

section

variable (h : Tracks hist m log)
include h

theorem Tracks.fetches : m.Fetches log := by
  intro k r hr
  obtain ⟨⟨y, hy, htouch⟩, -⟩ := (h.index k).written r hr
  obtain ⟨x, hx, hlog⟩ := h.reads k r hr
  exact ⟨x, hlog, unique_of_ascending h.ascending hy hx ▸ htouch⟩

/-- The record behind a lookup, and what it does to the key. -/
theorem Tracks.record_of_latest (hq : q ≤ m.applied) {r : Nat}
    (hl : m.revisions.getLatestRevisionByKey k q = some r) :
    ∃ x e, (r, x) ∈ hist ∧ log r = .ok x ∧ lastOn x k = some e ∧
      lastEvent hist k q = some (r, e) := by
  obtain ⟨e, hlast⟩ := (h.index k).latest_some h.ascending hq hl
  obtain ⟨x, hx, hlog⟩ := h.reads k r (Timeline.mem_of_latest hl)
  obtain ⟨⟨y, hy, -, hon⟩, -⟩ := (lastEvent_eq_some_iff_of_ascending h.ascending).mp hlast
  obtain rfl := unique_of_ascending h.ascending hy hx
  exact ⟨y, e, hy, hlog, hon, hlast⟩

/-- In the readable window a lookup sees the history. -/
theorem Tracks.seen_eq_stateAt (hc : m.compacted ≤ q) (hq : q ≤ m.applied) (k : Bytes) :
    m.seen hist q k = stateAt hist q k := by
  unfold seen
  cases hl : m.revisions.getLatestRevisionByKey k q with
  | some r => simp
  | none =>
    have := (h.index k).latest_none h.ascending hc hq hl
    simp [this]

/-- A lookup differs from the history exactly when the key exists at the revision and was written
after it, at or below the compaction point. -/
theorem Tracks.seen_eq_stateAt_iff (hq : q ≤ m.applied) (k : Bytes) :
    m.seen hist q k = stateAt hist q k ↔
      ¬ (stateAt hist q k ≠ none ∧ ∃ r, q < r ∧ r ≤ m.compacted ∧ Writes hist k r) := by
  have hslot := h.index k
  unfold seen
  cases hl : m.revisions.getLatestRevisionByKey k q with
  | some r =>
    -- The entry found lies below any write up to the point, so there is none.
    have hmem := Timeline.mem_of_latest hl
    have hle := Timeline.le_of_latest hl
    simp only [Option.isSome_some, if_true, true_iff, not_and]
    rintro - ⟨w, hqw, hwc, hwr⟩
    have := hslot.below r hmem (by omega) w hwc hwr
    omega
  | none =>
    simp only [Option.isSome_none, Bool.false_eq_true, if_false]
    constructor
    · rintro heq ⟨hne, -⟩
      exact hne heq.symm
    · intro hnot
      by_contra hne
      refine hnot ⟨fun h0 => hne h0.symm, ?_⟩
      by_contra hquiet
      -- With no write in between, the key's state at the point is its state at `q`.
      have hmissing := Timeline.latest_eq_none_iff.mp hl
      rcases Nat.lt_or_ge q m.compacted with hqc | hqc
      · have hsame : lastEvent hist k m.compacted = lastEvent hist k q :=
          lastEvent_eq_of_quiet h.ascending hqc.le fun r h1 h2 hwr =>
            hquiet ⟨r, h1, h2, hwr⟩
        cases hlast : lastEvent hist k q with
        | none => exact hne (by simp [stateAt, hlast, liveKv])
        | some p =>
          obtain ⟨r, e⟩ := p
          obtain ⟨⟨-, -, hr, -⟩, -⟩ := lastEvent_spec h.ascending hlast
          have hput : e.type = .put := by
            cases htype : e.type with
            | put => rfl
            | delete =>
              exact absurd (by simp [stateAt, hlast, liveKv, htype]) hne
          have := hmissing r (hslot.kept r e (hsame.trans hlast) hput)
          omega
      · exact hne (hslot.latest_none h.ascending hqc hq hl).symm

/-- A lookup finds the key's last write exactly if the index has it. -/
theorem Tracks.latest_iff {r : Nat} {e : Event} (hlast : lastEvent hist k q = some (r, e)) :
    m.revisions.getLatestRevisionByKey k q = some r ↔ r ∈ m.revisions.revisionsOf k := by
  obtain ⟨⟨-, -, hr, -⟩, hmax⟩ := lastEvent_spec h.ascending hlast
  refine ⟨Timeline.mem_of_latest, fun hmem => ?_⟩
  refine (Timeline.latest_eq_some_iff (h.index k).sorted).mpr ⟨hmem, hr, fun y hy hle => ?_⟩
  exact hmax y hle ((h.index k).written y hy).1

/-- The compares, `put`, `delete` and `get` find the state of their key exactly if it is readable. -/
theorem Tracks.prevEvent_iff (hq : q ≤ m.applied) {event : Option Event}
    (hprev : m.prevEvent log k q = .ok event) :
    liveKv event = stateAt hist q k ↔ m.Readable hist q k := by
  have hseen := h.seen_eq_stateAt_iff hq k
  unfold seen at hseen
  unfold prevEvent at hprev
  cases hl : m.revisions.getLatestRevisionByKey k q with
  | none =>
    rw [hl] at hprev hseen
    cases hprev
    refine hseen.trans ⟨fun hnot => ⟨hnot, fun p _ hmem ⟨e, hlast⟩ => ?_⟩, Readable.notPassed⟩
    rw [(h.latest_iff hlast).mpr hmem] at hl
    cases hl
  | some r =>
    obtain ⟨x, e, hx, hlog, hon, hlast⟩ := h.record_of_latest hq hl
    obtain ⟨y, e', hlog', hfind⟩ := h.fetches.record hl
    obtain rfl : x = y := Except.ok.inj (hlog.symm.trans hlog')
    simp only [hl, fetchEvent, hlog, hfind, Except.map, Except.ok.injEq] at hprev
    simp only [hl, Option.isSome_some, if_true, true_iff] at hseen
    subst hprev
    rw [stateAt_of_last hlast, ← hon, ← hfind]
    -- The record that is found is the one of the last write.
    refine ⟨fun hback => ⟨hseen, fun p hp _ ⟨e'', hlast'⟩ => ?_⟩, fun hread => ?_⟩
    · obtain ⟨hr, -⟩ := Prod.mk.inj (Option.some.inj (hlast.symm.trans hlast'))
      subst hr
      obtain rfl := unique_of_ascending h.ascending hx hp
      exact hback
    · exact hread.readsBack (r, x) hx (Timeline.mem_of_latest hl) ⟨e, hlast⟩

end

end Tracks

section Coherent

variable {hist : LogHistory} {m : MemoryStorage} {log : LogReader} {k : Bytes} {q : Nat}

theorem Coherent.record_of_latest (h : Coherent hist m log) (hq : q ≤ m.applied) {r : Nat}
    (hl : m.revisions.getLatestRevisionByKey k q = some r) :
    ∃ x e, (r, x) ∈ hist ∧ log r = .ok x ∧ findEvent x k = some e ∧
      lastEvent hist k q = some (r, e) := by
  obtain ⟨x, e, hx, hlog, hon, hlast⟩ := h.toTracks.record_of_latest hq hl
  obtain ⟨he, hk⟩ := mem_of_lastOn hon
  have hfind := findEvent_of_mem (h.wellFormed.distinct _ hx) he
  rw [show e.kv.key = k from hk] at hfind
  exact ⟨x, e, hx, hlog, hfind, hlast⟩

section

variable (h : Coherent hist m log)
include h

/-- The compares, `put` and `delete` fetch the last event on their key. -/
theorem Coherent.prevEvent_eq (hq : q ≤ m.applied) (k : Bytes) :
    ∃ event, m.prevEvent log k q = .ok event ∧
      liveKv event = m.seen hist q k := by
  unfold prevEvent seen
  cases hl : m.revisions.getLatestRevisionByKey k q with
  | none => exact ⟨none, rfl, by simp [liveKv]⟩
  | some r =>
    obtain ⟨x, e, -, hlog, hfind, hlast⟩ := h.record_of_latest hq hl
    refine ⟨some e, ?_, ?_⟩
    · simp [fetchEvent, hlog, hfind, Except.map]
    · simp [stateAt_of_last hlast]

/-! ## Compares and point reads -/

theorem Coherent.evaluateCompare_eq (hq : q ≤ m.applied) (cond : Compare) :
    m.evaluateCompare log q cond = compareKv cond (m.seen hist q cond.key) := by
  obtain ⟨event, hprev, hlive⟩ := h.prevEvent_eq hq cond.key
  rw [evaluateCompare, hprev, ← hlive]
  rfl

/-- `Get` returns what it sees at the revision it reads at. -/
theorem Coherent.get_eq {snapshot : Nat} (hkey : req.key = some k) (hend : req.rangeEnd = none)
    (hcount : req.countOnly = false) (hat : m.readAt snapshot req = .ok q) (hq : q ≤ m.applied) :
    m.get log snapshot req = .ok (getResponse req q (m.seen hist q k)) := by
  obtain ⟨event, hprev, hlive⟩ := h.prevEvent_eq hq k
  rw [← hlive]
  exact h.fetches.get_eq hkey hend hcount hat hprev

end

end Coherent

end CloudEtcd
