/-
# CloudEtcd.Storage.AnyRecords — index, log and history agree.

`Store.Held` is the agreement of index, log and history, for records of any content: a transaction may write
one key several times, and its record then has several events on the key.  Every step of the store keeps it;
a compaction of the log may drop a record only when the index does not refer to it on any of its keys.
Lookups always find an event of their key (`Held.fetches`), though not always the last one.

`Store.Inv` adds that no record writes a key twice.
-/
import CloudEtcd.Storage.LogInv

namespace CloudEtcd

open History MemoryStorage FilesystemLog BPTree

/-- Index, log and history agree, for records of any content. -/
structure Store.Held (s : Store) : Prop extends s.LogInv where
  index : IndexInv s.history s.mem.applied s.mem.compacted s.mem.revisions
  /-- The log holds the record behind every indexed revision. -/
  indexed : ∀ k, ∀ r ∈ s.mem.revisions.revisionsOf k, ∃ x, (r, x) ∈ s.log.records
  /-- Compaction has touched nothing above its point. -/
  tail : ∀ p ∈ s.history, s.mem.compacted < p.1 → p ∈ s.log.records
  /-- Every revision that is not applied yet has a record. -/
  pending : ∀ r, s.mem.applied < r → r ≤ s.log.lastRevision → ∃ x, (r, x) ∈ s.history

/-- The same for records that write no key twice. -/
structure Store.Inv (s : Store) : Prop extends s.Held where
  wellFormed : WellFormed s.history

namespace Store

variable {s s' : Store}

section

variable (h : s.Held) {k : Bytes} {r : Nat}
include h

/-- An indexed revision is applied, and its record touches the key. -/
theorem Held.touched (hr : r ∈ s.mem.revisions.revisionsOf k) :
    r ≤ s.mem.applied ∧ ∃ x, (r, x) ∈ s.log.records ∧ Touches x k := by
  obtain ⟨⟨y, hy, htouch⟩, hle⟩ := (h.index k).written r hr
  obtain ⟨x, hx⟩ := h.indexed k r hr
  exact ⟨hle, x, hx, h.ascending.unique hy (h.recordsIn _ hx) ▸ htouch⟩

/-- At or below the compaction point a key has at most one revision. -/
theorem Held.below {r' : Nat} (hr : r ∈ s.mem.revisions.revisionsOf k)
    (hr' : r' ∈ s.mem.revisions.revisionsOf k) (hle : r ≤ s.mem.compacted)
    (hle' : r' ≤ s.mem.compacted) : r = r' := by
  have hslot := h.index k
  exact le_antisymm (hslot.below r' hr' hle' r hle (hslot.written r hr).1)
    (hslot.below r hr hle r' hle' (hslot.written r' hr').1)

/-- The log answers with the record of an indexed revision. -/
theorem Held.read (hr : r ∈ s.mem.revisions.revisionsOf k) :
    ∃ x, (r, x) ∈ s.log.records ∧ s.log.read r = .ok x := by
  obtain ⟨x, hx⟩ := h.indexed k r hr
  exact ⟨x, hx, read_of_mem h.files h.cacheIn h.recordsIn h.ascending hx⟩

/-- The storage tracks the history through what the log answers. -/
theorem Held.tracks : Tracks s.history s.mem s.log.read where
  ascending := h.ascending
  compacted_le := h.compacted_le
  index := h.index
  reads k r hr := by
    obtain ⟨x, hx, hread⟩ := h.read hr
    exact ⟨x, h.recordsIn _ hx, hread⟩

theorem Held.fetches : s.mem.Fetches s.log.read := h.tracks.fetches

end

/-! ## Steps of the log -/

variable {log : FilesystemLog}

section

variable (h : s.Held)
include h

/-- A commit of any records. -/
theorem Held.commit {position : Nat} {batch : List LogRecord}
    (hcommit : s.commit position batch = .ok s') : s'.Held := by
  obtain ⟨hinv, -⟩ := h.toLogInv.commit hcommit
  obtain ⟨log, hlog, rfl⟩ := commit_eq_ok hcommit
  obtain ⟨-, -, hrecords, hlast, -⟩ := commitBatch_spec h.files hlog
  refine ⟨hinv, h.index.extend h.compacted_le fun p hp => ?_, fun k r hr => ?_, ?_, ?_⟩
  · -- The new records are not applied yet.
    exact h.applied_le.trans_lt (mem_numberFrom hp).1
  · obtain ⟨x, hx⟩ := h.indexed k r hr
    refine ⟨x, ?_⟩
    show (r, x) ∈ log.records
    rw [hrecords]
    exact List.mem_append_left _ hx
  · intro p hp hgt
    show p ∈ log.records
    rw [hrecords]
    rcases List.mem_append.mp hp with hp | hp
    · exact List.mem_append_left _ (h.tail p hp hgt)
    · exact List.mem_append_right _ hp
  · intro r hr hle
    exact pending_append h.pending batch hr (hlast ▸ hle)

/-- A step of the log that keeps every record the store needs. -/
theorem Held.withLog (hinv : LogInv { s with log := log })
    (hlast : log.lastRevision = s.log.lastRevision) (hkeep : ∀ p ∈ s.log.records, p ∈ log.records ∨
    p.1 ≤ s.mem.compacted ∧ ∀ k, Touches p.2 k → p.1 ∉ s.mem.revisions.revisionsOf k) :
    Held { s with log := log } where
  toLogInv := hinv
  index := h.index
  indexed k r hr := by
    obtain ⟨-, x, hx, htouch⟩ := h.touched hr
    exact ⟨x, (hkeep _ hx).resolve_right fun hnot => hnot.2 k htouch hr⟩
  tail p hp hgt := (hkeep p (h.tail p hp hgt)).resolve_right fun hnot => absurd hnot.1 (not_le.mpr hgt)
  pending r hr hle := h.pending r hr (hlast ▸ hle)

theorem Held.rotate : s.rotate.Held := by
  obtain ⟨hrecords, hlast, -⟩ := rotate_frame s.log
  exact h.withLog h.toLogInv.rotate hlast fun p hp => Or.inl (hrecords.symm ▸ hp)

theorem Held.touch (revision : Nat) : (s.touch revision).Held := by
  have hinv := h.toLogInv.touch revision
  obtain ⟨cache, heq⟩ := getLogEntry_frame s.log revision
  refine h.withLog hinv ?_ fun p hp => Or.inl ?_
  · rw [heq]
  · rw [heq]
    exact hp

/-- The swap of a group that drops only what the index does not refer to. -/
theorem Held.compactGroup {pre group post : List LogFile} {kept : LogHistory}
    (hclosed : s.log.closed = pre ++ group ++ post) (hne : group ≠ [])
    (hsub : kept.Sublist (group.flatMap LogFile.records))
    (hdrop : ∀ p ∈ group.flatMap LogFile.records, p ∉ kept → p.1 ≤ s.mem.compacted ∧
    ∀ k, Touches p.2 k → p.1 ∉ s.mem.revisions.revisionsOf k) :
    (s.compactGroup group kept).Held := by
  have hmem := fun r : Nat × LogRecord =>
    mem_records_compactGroup h.files hclosed hne hsub (r := r)
  refine h.withLog ?_ rfl fun p hp => ((hmem p).2 hp).imp_right fun ⟨hg, hnot⟩ => hdrop p hg hnot
  exact h.toLogInv.withLog (compactGroup_spec h.files hclosed hne hsub).2
    (fun p hp => (hmem p).1 hp) h.cacheIn rfl

/-! ## Steps of the index -/

/-- Applying the next record, with however many events on a key. -/
theorem Held.applyRecord (env : LeaseEnv) {x : LogRecord}
    (hx : (s.mem.applied + 1, x) ∈ s.history) :
    Held { s with mem := { s.mem.applyRecord env (s.mem.applied + 1) x with
      applied := s.mem.applied + 1 } } := by
  obtain ⟨hc, -⟩ := applyRecord_frame env (s.mem.applied + 1) s.mem x
  have hcompacted := h.compacted_le
  refine ⟨h.toLogInv.applyRecord env hx, ?_, fun k r hr => ?_, fun p hp hgt => ?_,
    fun r hr hle => h.pending r (lt_trans (Nat.lt_succ_self _) hr) hle⟩
  · show IndexInv _ _ (s.mem.applyRecord env _ x).compacted _
    rw [hc]
    refine h.index.applyRecord h.ascending env hcompacted (Nat.lt_succ_self _) hx fun p _ => ?_
    show p.1 ≤ s.mem.applied ∨ s.mem.applied + 1 ≤ p.1
    omega
  · rcases mem_revisionsOf_applyRecord hr with hr | rfl
    · exact h.indexed k r hr
    · exact ⟨x, h.tail _ hx (Nat.lt_succ_of_le hcompacted)⟩
  · change (s.mem.applyRecord env _ x).compacted < p.1 at hgt
    rw [hc] at hgt
    exact h.tail p hp hgt

theorem Held.applyUpTo (env : LeaseEnv) (fails : Nat → Bool) (rev : Nat) :
    (s.applyUpTo env fails rev).1.Held :=
  applyNext_induction env (fun _ _ hs hx => hs.applyRecord env hx) h
    (fun _ _ hread => h.reader_mem hread) _

/-- With a log that can be read, everything committed can be applied. -/
theorem Held.applyUpTo_head (env : LeaseEnv) :
    (s.applyUpTo env (fun _ => false) s.log.lastRevision).2 = .ok () ∧
      (s.applyUpTo env (fun _ => false) s.log.lastRevision).1.mem.applied = s.log.lastRevision := by
  have hok : (s.applyUpTo env (fun _ => false) s.log.lastRevision).2 = .ok () := by
    apply applyNext_ok
    intro r h1 h2
    have hle := h.applied_le
    obtain ⟨x, hx⟩ := h.pending r h1 (by omega)
    refine ⟨x, ?_⟩
    show s.log.read r = .ok x
    exact read_of_mem h.files h.cacheIn h.recordsIn h.ascending
      (h.tail _ hx (h.compacted_le.trans_lt h1))
  refine ⟨hok, le_antisymm ?_ (applied_of_applyUpTo hok)⟩
  exact (h.applyUpTo env (fun _ => false) s.log.lastRevision).applied_le

end

theorem Held.compact (h : s.Held) (watchers : List MemoryStorage.WatcherView) (revision : Nat) :
    (s.compact watchers revision).1.Held := by
  have hinv := h.toLogInv.compact watchers revision
  rcases mem_compact_cases s.mem watchers revision with heq | ⟨through, hgt, hle, heq⟩
  · simpa [Store.compact, heq] using h
  · simp only [Store.compact, heq] at hinv ⊢
    exact ⟨hinv, h.index.compact h.ascending hgt.le hle,
      fun k r hr => h.indexed k r (mem_revisionsOf_compact hr),
      fun p hp hlt => h.tail p hp (hgt.trans hlt), h.pending⟩

variable {k : Bytes}

/-- An indexed revision at or below a past compaction point is live for that point. -/
theorem Held.live_of_indexed (h : s.Held) {through : Nat} (ht : through ≤ s.mem.compacted)
    {r : Nat} (hr : r ∈ s.mem.revisions.revisionsOf k) (hle : r ≤ through) :
    s.mem.live through k r = true := by
  have hlatest : s.mem.revisions.getLatestRevisionByKey k through = some r := by
    refine (Timeline.latest_eq_some_iff (h.index k).sorted).mpr ⟨hr, hle, fun y hy hyt => ?_⟩
    exact (h.below hy hr (hyt.trans ht) (hle.trans ht)).le
  simp [live, hlatest]

/-- The log compaction that a storage compaction starts, with a storage that stands still. -/
theorem Held.compactLog (h : s.Held) {through : Nat} (ht : through ≤ s.mem.compacted) :
    (s.compactLog through).Held := by
  refine (compact_induction (P := fun log => Held { s with log := log }) h.files h
    ?_).2.2
  intro log pre post g hg _ hne hclosed hheld
  have hbelow : ∀ p ∈ g.files.flatMap LogFile.records, p.1 ≤ through := by
    apply records_le h.files
    · exact fun f hf => (files_of_compactionGroup hg hf).1
    · exact fun f hf => (files_of_compactionGroup hg hf).2
  refine hheld.compactGroup hclosed hne List.filter_sublist fun p hp hnot =>
    ⟨(hbelow p hp).trans ht, ?_⟩
  rintro k ⟨ev, hev, rfl⟩ hindexed
  -- A record that the index refers to would have been live.
  refine hnot (List.mem_filter.mpr ⟨hp, List.any_eq_true.mpr ⟨ev, hev, ?_⟩⟩)
  exact hheld.live_of_indexed ht hindexed (hbelow p hp)

/-! ## The start of a process -/

/-- A process that starts on a well-formed log, whatever the records hold. -/
theorem Held.start {env : LeaseEnv} (hwf : log.WF)
    (hcache : log.cache.ll = []) (hstart : Store.start env log = .ok s) : s.Held := by
  have hinv := LogInv.start hwf hcache hstart
  unfold Store.start at hstart
  split at hstart
  · next hzero =>
    -- The first record has no events, so the index stays empty.
    have hempty := hwf.records_eq_nil hzero
    have hbase : Held ⟨new, log, []⟩ := by
      refine ⟨⟨List.Pairwise.nil, by simp, hwf, by simp [hempty], fun it hit => ?_, le_rfl,
        Nat.zero_le _⟩, IndexInv.empty (by simp), ?_, by simp, fun r h1 h2 => ?_⟩
      · simp [hcache] at hit
      · simp [new, revisionsOf]
      · change 0 < r at h1
        change r ≤ log.lastRevision at h2
        omega
    obtain ⟨s', hc, hrest⟩ := bind_eq_ok.mp hstart
    cases hrest
    have hheld : s'.Held := hbase.commit hc
    obtain ⟨log', hlog, rfl⟩ := commit_eq_ok hc
    simp only [hzero] at hheld ⊢
    exact hheld.applyRecord env (x := ⟨[]⟩) (by simp [numberFrom, new])
  · cases hstart
    obtain ⟨hc, ha⟩ := replayLog_frame env new log.readAll log.lastRevision
    have hindex := index_replayLog env hwf
    refine ⟨hinv, ?_, fun k r hr => ?_, fun p hp _ => hp, fun r h1 h2 => ?_⟩
    · rw [hc, ha]
      exact hindex
    · obtain ⟨⟨x, hx, -⟩, -⟩ := (hindex k).written r hr
      exact ⟨x, hx⟩
    · rw [ha] at h1
      change r ≤ log.lastRevision at h2
      omega

/-! ## Records that write no key twice -/

section Inv

variable {position : Nat} {batch : List LogRecord} {env : LeaseEnv}

section

variable (h : s.Inv)
include h

theorem Inv.records_wellFormed : WellFormed s.log.records :=
  ⟨h.files.ascending, fun p hp => h.wellFormed.distinct p (h.recordsIn p hp)⟩

theorem Inv.coherent : Coherent s.history s.mem s.log.read := ⟨h.toHeld.tracks, h.wellFormed⟩

/-- A commit of records that write no key twice. -/
theorem Inv.commit (hd : ∀ x ∈ batch, (x.events.map (·.kv.key)).Nodup)
    (hcommit : s.commit position batch = .ok s') : s'.Inv := by
  have hheld := h.toHeld.commit hcommit
  obtain ⟨log, -, rfl⟩ := commit_eq_ok hcommit
  refine ⟨hheld, hheld.ascending, fun p hp => ?_⟩
  rcases List.mem_append.mp hp with hp | hp
  · exact h.wellFormed.distinct p hp
  · exact hd p.2 (mem_numberFrom hp).2.2

theorem Inv.applyUpTo (env : LeaseEnv) (fails : Nat → Bool) (rev : Nat) :
    (s.applyUpTo env fails rev).1.Inv :=
  ⟨h.toHeld.applyUpTo env fails rev, h.wellFormed⟩

end

/-- A process that starts on a well-formed log starts with the invariant. -/
theorem Inv.start (hwf : log.WF) (hwell : WellFormed log.records)
    (hcache : log.cache.ll = []) (hstart : Store.start env log = .ok s) : s.Inv := by
  have hheld := Held.start hwf hcache hstart
  refine ⟨hheld, hheld.ascending, fun p hp => ?_⟩
  rcases start_history hstart with heq | hnone
  · exact hwell.distinct p (heq ▸ hp)
  · show (p.2.events.map (·.kv.key)).Nodup
    rw [hnone p hp]
    exact List.nodup_nil

end Inv

end Store

end CloudEtcd
