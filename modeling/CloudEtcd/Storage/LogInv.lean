/-
# CloudEtcd.Storage.LogInv — what the log answers is the history, whatever the records hold.

`Store.LogInv` is the part of the agreement between log and history that every commit, lookup, rotation and
compaction keeps for records of any content, also if one writes a key twice.
-/
import CloudEtcd.Persistence.CompactFiles
import CloudEtcd.Storage.Store

namespace CloudEtcd

open FilesystemLog

/-- What the log answers is the history, whatever the records hold. -/
structure Store.LogInv (s : Store) : Prop where
  ascending : Ascending s.history
  head : ∀ p ∈ s.history, p.1 ≤ s.log.lastRevision
  files : s.log.WF
  recordsIn : ∀ p ∈ s.log.records, p ∈ s.history
  cacheIn : s.log.CacheIn s.history
  compacted_le : s.mem.compacted ≤ s.mem.applied
  applied_le : s.mem.applied ≤ s.log.lastRevision

namespace Store

variable {s s' : Store}

section

variable (h : s.LogInv)
include h

theorem LogInv.reader_mem {fails : Nat → Bool} {r : Nat} {x : LogRecord}
    (hread : s.reader fails r = .ok x) : (r, x) ∈ s.history := by
  unfold reader at hread
  split at hread
  · cases hread
  · exact read_mem h.files h.cacheIn h.recordsIn hread

/-- The history after a commit. -/
theorem LogInv.commit {position : Nat} {batch : List LogRecord}
    (hcommit : s.commit position batch = .ok s') :
    s'.LogInv ∧ ∃ new, s'.history = s.history ++ new ∧ (∀ p ∈ new, s.log.lastRevision < p.1) ∧
      s.log.lastRevision ≤ s'.log.lastRevision ∧ s'.mem = s.mem := by
  obtain ⟨log, hlog, rfl⟩ := commit_eq_ok hcommit
  obtain ⟨-, hwf, hrecords, hlast, hcache, -⟩ := commitBatch_spec h.files hlog
  have hle : s.log.lastRevision ≤ log.lastRevision := by omega
  refine ⟨⟨?_, ?_, hwf, ?_, ?_, h.compacted_le, h.applied_le.trans hle⟩,
    _, rfl, fun p hp => (mem_numberFrom hp).1, hle, rfl⟩
  · refine List.pairwise_append.mpr ⟨h.ascending,
      ascending_of_map_fst (map_fst_numberFrom _ _), ?_⟩
    intro p hp q hq
    have h1 := h.head p hp
    have h2 := (mem_numberFrom hq).1
    omega
  · intro p hp
    rcases List.mem_append.mp hp with hp | hp
    · exact (h.head p hp).trans hle
    · have := (mem_numberFrom hp).2.1
      show p.1 ≤ log.lastRevision
      omega
  · intro p hp
    rw [hrecords] at hp
    rcases List.mem_append.mp hp with hp | hp
    · exact List.mem_append_left _ (h.recordsIn p hp)
    · exact List.mem_append_right _ hp
  · intro it hit
    rcases hcache it hit with hit | hit
    · exact List.mem_append_left _ (h.cacheIn it hit)
    · exact List.mem_append_right _ hit

/-- A step of the log that neither commits nor adds records. -/
theorem LogInv.withLog {log : FilesystemLog} (hwf : log.WF)
    (hrecords : ∀ p ∈ log.records, p ∈ s.log.records)
    (hcache : log.CacheIn s.history) (hlast : log.lastRevision = s.log.lastRevision) :
    LogInv { s with log := log } where
  ascending := h.ascending
  head p hp := hlast ▸ h.head p hp
  files := hwf
  recordsIn p hp := h.recordsIn p (hrecords p hp)
  cacheIn := hcache
  compacted_le := h.compacted_le
  applied_le := hlast ▸ h.applied_le

theorem LogInv.rotate : s.rotate.LogInv := by
  obtain ⟨hrecords, hlast, hcache, -⟩ := rotate_frame s.log
  refine h.withLog (wf_rotate h.files) (fun p hp => hrecords ▸ hp) ?_ hlast
  intro it hit
  rw [hcache] at hit
  exact h.cacheIn it hit

theorem LogInv.touch (revision : Nat) : (s.touch revision).LogInv := by
  have hcache := cacheIn_getLogEntry h.files h.cacheIn h.recordsIn revision
  obtain ⟨cache, heq⟩ := getLogEntry_frame s.log revision
  refine h.withLog ?_ ?_ hcache ?_
  · rw [heq]
    exact ⟨h.files.closed, h.files.active, h.files.dense, h.files.last⟩
  · rw [heq]
    exact fun p hp => hp
  · rw [heq]

theorem LogInv.compactLog (through : Nat) : (s.compactLog through).LogInv := by
  obtain ⟨-, -, hlast, hcache⟩ := compact_frame h.files through (s.mem.live through)
  refine h.withLog (compact_spec h.files _ _).1 (fun p hp => ?_) ?_ hlast
  · rcases (mem_records_compact h.files).mp hp with hp | ⟨g, hg, -, hp, -⟩
    · obtain ⟨f, hf, hpf⟩ := List.mem_flatMap.mp hp
      have hmem := (leftAlone_sublist h.files through _).subset hf
      exact List.mem_flatMap.mpr ⟨f, hmem, hpf⟩
    · obtain ⟨f, hf, hpf⟩ := List.mem_flatMap.mp hp
      have hmem := (files_of_compactionGroup hg hf).1
      exact List.mem_flatMap.mpr ⟨f, List.mem_append_left _ hmem, hpf⟩
  · intro it hit
    rw [hcache] at hit
    exact h.cacheIn it hit

/-- Applying the next record of the history. -/
theorem LogInv.applyRecord (env : LeaseEnv) {x : LogRecord}
    (hx : (s.mem.applied + 1, x) ∈ s.history) :
    LogInv { s with mem := { s.mem.applyRecord env (s.mem.applied + 1) x with
      applied := s.mem.applied + 1 } } where
  ascending := h.ascending
  head := h.head
  files := h.files
  recordsIn := h.recordsIn
  cacheIn := h.cacheIn
  compacted_le := by
    show (s.mem.applyRecord env _ x).compacted ≤ s.mem.applied + 1
    rw [(applyRecord_frame env _ s.mem x).1]
    exact h.compacted_le.trans (Nat.le_succ _)
  applied_le := h.head _ hx

theorem LogInv.applyUpTo (env : LeaseEnv) (fails : Nat → Bool) (rev : Nat) :
    (s.applyUpTo env fails rev).1.LogInv ∧
      (s.applyUpTo env fails rev).1.mem.compacted = s.mem.compacted :=
  ⟨applyNext_induction env (fun _ _ hs hx => hs.applyRecord env hx) h
    (fun _ _ hread => h.reader_mem hread) _, (applyNext_frame env _ _ s.mem).2.1⟩

theorem LogInv.compact (watchers : List MemoryStorage.WatcherView) (revision : Nat) :
    (s.compact watchers revision).1.LogInv := by
  rcases mem_compact_cases s.mem watchers revision with heq | ⟨through, -, hle, heq⟩
  · simpa [Store.compact, heq] using h
  · simp only [Store.compact, heq]
    exact ⟨h.ascending, h.head, h.files, h.recordsIn, h.cacheIn, hle, h.applied_le⟩

end

/-- A process that starts on a well-formed log, whatever the records hold. -/
theorem LogInv.start {env : LeaseEnv} {log : FilesystemLog} (hwf : log.WF)
    (hcache : log.cache.ll = []) (hstart : Store.start env log = .ok s) : s.LogInv := by
  unfold Store.start at hstart
  split at hstart
  · next hzero =>
    have hbase : LogInv ⟨MemoryStorage.new, log, []⟩ := by
      refine ⟨List.Pairwise.nil, by simp, hwf, fun p hp => ?_, fun it hit => ?_, le_rfl,
        Nat.zero_le _⟩
      · have := hwf.record_bounds hp
        omega
      · simp [hcache] at hit
    obtain ⟨s', hc, hrest⟩ := bind_eq_ok.mp hstart
    cases hrest
    obtain ⟨hinv, -⟩ := hbase.commit hc
    obtain ⟨log', hlog, rfl⟩ := commit_eq_ok hc
    obtain ⟨-, -, -, hlast, -⟩ := commitBatch_spec hwf hlog
    refine ⟨hinv.ascending, hinv.head, hinv.files, hinv.recordsIn, hinv.cacheIn,
      Nat.zero_le _, ?_⟩
    show 1 ≤ log'.lastRevision
    rw [hlast, hzero]
    exact le_rfl
  · cases hstart
    obtain ⟨hc, ha⟩ := replayLog_frame env MemoryStorage.new log.readAll log.lastRevision
    refine ⟨hwf.ascending, fun p hp => (hwf.record_bounds hp).2, hwf, fun p hp => hp,
      fun it hit => ?_, ?_, ha.le⟩
    · simp [hcache] at hit
    · rw [hc]
      exact Nat.zero_le _

end Store

end CloudEtcd
