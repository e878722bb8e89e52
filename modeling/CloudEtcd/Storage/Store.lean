/-
# CloudEtcd.Storage.Store — the storage with its log, and the steps of either.

A `Store` is a `MemoryStorage` on a `FilesystemLog`, together with the history of all records that
were in the log or have been committed since.  Each atomic step of the two components is one
function here: a commit, a rotation, a lookup (it moves the cache), `applyUpTo`, the locked part of
`Compact`, and the swap of a compacted group of files.  `Store.Later` is how a store moves on.
-/
import CloudEtcd.Persistence.LogFiles
import CloudEtcd.Storage.SnapshotReads

namespace CloudEtcd

open History FilesystemLog MemoryStorage

/-- The storage, its log, and every record of the log so far. -/
structure Store where
  mem : MemoryStorage
  log : FilesystemLog
  history : LogHistory

variable {hist : LogHistory}

namespace Store

/-! ## Steps -/

/-- The flusher commits a batch. -/
def commit (s : Store) (lastLogPosition : Nat) (batch : List LogRecord) :
    Except CommitError Store := do
  let log ← s.log.commitBatch lastLogPosition batch
  return { s with
    log := log
    history := s.history ++ numberFrom (s.log.lastRevision + 1) batch }

/-- The active file is closed and the next one started. -/
def rotate (s : Store) : Store := { s with log := s.log.rotate }

/-- Some goroutine reads a record. -/
def touch (s : Store) (revision : Nat) : Store :=
  { s with log := (s.log.getLogEntry revision).1 }

/-- The log as a caller of `GetLogEntry` sees it while reads of some revisions fail. -/
def reader (s : Store) (fails : Nat → Bool) : LogReader := fun r =>
  if fails r then .error (.io r) else s.log.read r

/-- A call of `applyUpTo`. -/
def applyUpTo (s : Store) (env : LeaseEnv) (fails : Nat → Bool) (rev : Nat) :
    Store × Except TxnError Unit :=
  let r := s.mem.applyUpTo env (s.reader fails) rev
  ({ s with mem := r.1 }, r.2)

/-- The locked part of a call of `Compact`. -/
def compact (s : Store) (watchers : List MemoryStorage.WatcherView) (revision : Nat) :
    Store × Option Nat :=
  let r := s.mem.compact watchers revision
  ({ s with mem := r.1 }, r.2)

/-- The swap at the end of `compactGroup`. -/
def compactGroup (s : Store) (group : List LogFile) (kept : LogHistory) : Store :=
  { s with log := s.log.compactGroup group kept }

/-- The log compaction that `MemoryStorage.Compact` starts, with a storage that stands still. -/
def compactLog (s : Store) (through : Nat) : Store :=
  { s with log := s.log.compact through (s.mem.live through) }

/-- `NewMemoryStorage` on an opened log: an empty log gets a first record without events, any other
is replayed. -/
def start (env : LeaseEnv) (log : FilesystemLog) : Except CommitError Store :=
  if log.lastRevision = 0 then do
    let empty : Store := ⟨new, log, []⟩
    let s ← empty.commit 0 [⟨[]⟩]
    return { s with mem := { s.mem with applied := 1 } }
  else
    .ok ⟨new.replayLog env log.readAll log.lastRevision, log, log.records⟩

variable {s : Store}
variable {r position : Nat} {s' : Store} {batch : List LogRecord} {log : FilesystemLog}

/-! ## How a store moves on -/

/-- The second store comes later: the history has grown, the marks have only risen, and at or below
the old compaction point the index has only forgotten. -/
structure Later (s s' : Store) : Prop where
  history : ∃ new, s'.history = s.history ++ new ∧ ∀ p ∈ new, s.log.lastRevision < p.1
  head : s.log.lastRevision ≤ s'.log.lastRevision
  applied : s.mem.applied ≤ s'.mem.applied
  compacted : s.mem.compacted ≤ s'.mem.compacted
  forgets : ∀ k r, r ≤ s.mem.compacted → r ∈ s'.mem.revisions.revisionsOf k →
    r ∈ s.mem.revisions.revisionsOf k

theorem Later.refl (s : Store) : s.Later s :=
  ⟨⟨[], by simp, by simp⟩, le_rfl, le_rfl, le_rfl, fun _ _ _ h => h⟩

theorem Later.trans {s'' : Store} (h : s.Later s') (h' : s'.Later s'') : s.Later s'' := by
  obtain ⟨new, hnew, hgt⟩ := h.history
  obtain ⟨new', hnew', hgt'⟩ := h'.history
  refine ⟨⟨new ++ new', by rw [hnew', hnew, List.append_assoc], ?_⟩, h.head.trans h'.head,
    h.applied.trans h'.applied, h.compacted.trans h'.compacted, ?_⟩
  · intro p hp
    rcases List.mem_append.mp hp with hp | hp
    · exact hgt p hp
    · exact h.head.trans_lt (hgt' p hp)
  · intro k r hr hmem
    exact h.forgets k r hr (h'.forgets k r (hr.trans h.compacted) hmem)

/-! ## Commit, rotation, lookup -/

/-- A commit extends the history by its batch. -/
theorem commit_eq_ok (hcommit : s.commit position batch = .ok s') :
    ∃ log, s.log.commitBatch position batch = .ok log ∧ s' = { s with
      log := log
      history := s.history ++ numberFrom (s.log.lastRevision + 1) batch } := by
  obtain ⟨log, hlog, hrest⟩ := bind_eq_ok.mp hcommit
  cases hrest
  exact ⟨log, hlog, rfl⟩

/-- The records a process starts with: those of its log, or the first record of an empty one. -/
theorem start_history {env : LeaseEnv} (hstart : start env log = .ok s) :
    s.history = log.records ∨ ∀ p ∈ s.history, p.2.events = [] := by
  unfold start at hstart
  split at hstart
  · obtain ⟨s', hcommit, hrest⟩ := bind_eq_ok.mp hstart
    cases hrest
    obtain ⟨log', -, rfl⟩ := commit_eq_ok hcommit
    exact Or.inr (by simp [numberFrom])
  · cases hstart
    exact Or.inl rfl

theorem mem_numberFrom {first : Nat} {p : Nat × LogRecord} (hp : p ∈ numberFrom first batch) :
    first ≤ p.1 ∧ p.1 < first + batch.length ∧ p.2 ∈ batch := by
  induction batch generalizing first with
  | nil => simp [numberFrom] at hp
  | cons x xs ih =>
    rw [List.length_cons]
    rcases List.mem_cons.mp hp with rfl | hp
    · exact ⟨le_rfl, by simp, List.mem_cons_self⟩
    · obtain ⟨h1, h2, h3⟩ := ih hp
      exact ⟨by omega, by omega, List.mem_cons_of_mem _ h3⟩

/-- Every revision above the applied one has a record, also after a batch. -/
theorem pending_append {applied head : Nat}
    (hpending : ∀ r, applied < r → r ≤ head → ∃ x, (r, x) ∈ hist) (batch : List LogRecord)
    (hr : applied < r) (hle : r ≤ head + batch.length) :
    ∃ x, (r, x) ∈ hist ++ numberFrom (head + 1) batch := by
  rcases Nat.lt_or_ge head r with hgt | hge
  · -- The new revisions are exactly those of the batch.
    have hmem : r ∈ (numberFrom (head + 1) batch).map Prod.fst := by
      rw [map_fst_numberFrom, List.mem_range'_1]
      omega
    obtain ⟨⟨_, x⟩, hx, rfl⟩ := List.mem_map.mp hmem
    exact ⟨x, List.mem_append_right _ hx⟩
  · obtain ⟨x, hx⟩ := hpending r hr hge
    exact ⟨x, List.mem_append_left _ hx⟩

/-- Rotation and lookups change neither the history nor the storage. -/
theorem Later.of_log (hlast : log.lastRevision = s.log.lastRevision) :
    s.Later { s with log := log } :=
  ⟨⟨[], by simp, by simp⟩, hlast.ge, le_rfl, le_rfl, fun _ _ _ h => h⟩

theorem Later.commit (hfiles : s.log.WF) (hcommit : s.commit position batch = .ok s') : s.Later s' := by
  obtain ⟨log, hlog, rfl⟩ := commit_eq_ok hcommit
  obtain ⟨-, -, -, hlast, -⟩ := commitBatch_spec hfiles hlog
  refine ⟨⟨_, rfl, fun p hp => ?_⟩, ?_, le_rfl, le_rfl, fun _ _ _ h => h⟩
  · exact (mem_numberFrom hp).1
  · show s.log.lastRevision ≤ log.lastRevision
    omega

/-! ## Applying records -/

theorem applyRecord_frame (env : LeaseEnv) (r : Nat) (m : MemoryStorage) (x : LogRecord) :
    (m.applyRecord env r x).compacted = m.compacted ∧
    (m.applyRecord env r x).applied = m.applied := by
  obtain ⟨events⟩ := x
  unfold applyRecord
  induction events generalizing m with
  | nil => exact ⟨rfl, rfl⟩
  | cons e events ih => exact ih (m.applyEvent env r e)

/-- The loop of `applyUpTo`: a failed read ends it, any other record is applied. -/
theorem applyNext_succ (env : LeaseEnv) (log : LogReader) (n : Nat) (m : MemoryStorage) :
    (∃ e, applyNext env log (n + 1) m = (m, .error (.logEntry e))) ∨
    ∃ x, log (m.applied + 1) = .ok x ∧ applyNext env log (n + 1) m =
      applyNext env log n
        { m.applyRecord env (m.applied + 1) x with applied := m.applied + 1 } := by
  rw [applyNext]
  cases log (m.applied + 1) with
  | error e => exact Or.inl ⟨e, rfl⟩
  | ok x => exact Or.inr ⟨x, rfl, rfl⟩

/-- The loop never lowers the applied revision, leaves the compaction point alone and adds revisions
above the applied one only; if it does not fail it applies all it was asked to. -/
theorem applyNext_frame (env : LeaseEnv) (log : LogReader) (n : Nat) (m : MemoryStorage) :
    let r := applyNext env log n m
    m.applied ≤ r.1.applied ∧ r.1.compacted = m.compacted ∧
      (∀ k q, q ∈ r.1.revisions.revisionsOf k →
        q ∈ m.revisions.revisionsOf k ∨ m.applied < q) ∧
      (r.2 = .ok () → r.1.applied = m.applied + n) := by
  induction n generalizing m with
  | zero => exact ⟨le_rfl, rfl, fun _ _ hq => Or.inl hq, fun _ => rfl⟩
  | succ n ih =>
    rcases applyNext_succ env log n m with ⟨e, heq⟩ | ⟨x, -, heq⟩
    · rw [heq]
      exact ⟨le_rfl, rfl, fun _ _ hq => Or.inl hq, fun hok => nomatch hok⟩
    · obtain ⟨hle, hcomp, hrevs, hok⟩ :=
        ih { m.applyRecord env (m.applied + 1) x with applied := m.applied + 1 }
      rw [heq]
      refine ⟨(Nat.le_succ _).trans hle, ?_, ?_, ?_⟩
      · rw [hcomp]
        exact (applyRecord_frame env _ m x).1
      · intro k q hq
        rcases hrevs k q hq with hq | hq
        · rcases mem_revisionsOf_applyRecord hq with hq | rfl
          · exact Or.inl hq
          · exact Or.inr (Nat.lt_succ_self _)
        · exact Or.inr (lt_trans (Nat.lt_succ_self _) hq)
      · intro h'
        rw [hok h']
        show m.applied + 1 + n = m.applied + (n + 1)
        omega

theorem applyNext_ok (env : LeaseEnv) {log : LogReader} (n : Nat) (m : MemoryStorage)
    (hread : ∀ r, m.applied < r → r ≤ m.applied + n → ∃ x, log r = .ok x) :
    (applyNext env log n m).2 = .ok () := by
  induction n generalizing m with
  | zero => rfl
  | succ n ih =>
    obtain ⟨x, hx⟩ := hread (m.applied + 1) (Nat.lt_succ_self _) (by omega)
    rw [applyNext]
    simp only [hx]
    apply ih
    intro r h1 h2
    change m.applied + 1 < r at h1
    change r ≤ m.applied + 1 + n at h2
    exact hread r (by omega) (by omega)

/-- What every record of the history keeps, applied next, the loop keeps. -/
theorem applyNext_induction {P : Store → Prop} (env : LeaseEnv)
    (hrecord : ∀ (s : Store) (x : LogRecord), P s → (s.mem.applied + 1, x) ∈ s.history →
      P { s with mem := { s.mem.applyRecord env (s.mem.applied + 1) x with
        applied := s.mem.applied + 1 } })
    (h : P s) {log : LogReader} (hlog : ∀ r x, log r = .ok x → (r, x) ∈ s.history)
    (n : Nat) : P { s with mem := (applyNext env log n s.mem).1 } := by
  induction n generalizing s with
  | zero => exact h
  | succ n ih =>
    rcases applyNext_succ env log n s.mem with ⟨e, heq⟩ | ⟨x, hread, heq⟩
    · rw [heq]
      exact h
    · rw [heq]
      exact ih (hrecord s x h (hlog _ _ hread)) hlog

theorem Later.applyUpTo (hc : s.mem.compacted ≤ s.mem.applied) (env : LeaseEnv)
    (fails : Nat → Bool) (rev : Nat) : s.Later (s.applyUpTo env fails rev).1 := by
  obtain ⟨hle, hcomp, hrevs, -⟩ :=
    applyNext_frame env (s.reader fails) (rev - s.mem.applied) s.mem
  refine ⟨⟨[], by simp [Store.applyUpTo], by simp⟩, le_rfl, hle, hcomp.ge, ?_⟩
  intro k r hr hmem
  rcases hrevs k r hmem with hmem | hgt
  · exact hmem
  · omega

theorem applied_of_applyUpTo {env : LeaseEnv} {fails : Nat → Bool} {rev : Nat}
    (hok : (s.applyUpTo env fails rev).2 = .ok ()) :
    rev ≤ (s.applyUpTo env fails rev).1.mem.applied := by
  have happlied :=
    (applyNext_frame env (s.reader fails) (rev - s.mem.applied) s.mem).2.2.2 hok
  show rev ≤ (applyNext env (s.reader fails) _ s.mem).1.applied
  rw [happlied]
  omega

/-! ## Compaction -/

theorem foldl_delivered_le (watchers : List MemoryStorage.WatcherView) (n : Nat) :
    watchers.foldl (fun through w => if w.closed then through else min through w.delivered) n ≤ n := by
  induction watchers generalizing n with
  | nil => exact le_rfl
  | cons w watchers ih =>
    rw [List.foldl_cons]
    apply (ih _).trans
    split
    · exact le_rfl
    · exact min_le_left _ _

theorem compactThrough_le (m : MemoryStorage) (watchers : List MemoryStorage.WatcherView)
    (revision : Nat) : m.compactThrough watchers revision ≤ m.applied :=
  (foldl_delivered_le _ _).trans (min_le_right _ _)

/-- What the locked part of `Compact` does. -/
theorem mem_compact_cases (m : MemoryStorage) (watchers : List MemoryStorage.WatcherView)
    (revision : Nat) :
    m.compact watchers revision = (m, none) ∨
    ∃ through, m.compacted < through ∧ through ≤ m.applied ∧ m.compact watchers revision =
      ({ m with revisions := (m.revisions.compact through).1, compacted := through },
        some through) := by
  by_cases hle : m.compactThrough watchers revision ≤ m.compacted
  · exact Or.inl (by simp [MemoryStorage.compact, hle])
  · exact Or.inr ⟨_, not_le.mp hle, compactThrough_le m watchers revision,
      by simp [MemoryStorage.compact, hle]⟩

theorem Later.compact (s : Store) (watchers : List MemoryStorage.WatcherView) (revision : Nat) :
    s.Later (s.compact watchers revision).1 := by
  rcases mem_compact_cases s.mem watchers revision with heq | ⟨through, hgt, hle, heq⟩
  · simpa [Store.compact, heq] using Later.refl s
  · simp only [Store.compact, heq]
    exact ⟨⟨[], by simp, by simp⟩, le_rfl, le_rfl, hgt.le,
      fun k r _ hmem => mem_revisionsOf_compact hmem⟩

/-! ## The start of a process -/

theorem readAll_eq (l : FilesystemLog) : l.readAll = l.records := by
  unfold readAll records
  induction l.files with
  | nil => rfl
  | cons f fs ih =>
    rw [List.filter_cons]
    split
    · rw [List.flatMap_cons, List.flatMap_cons, ih]
    · next hcount =>
      have hnil : f.records = [] := by simpa [LogFile.count] using hcount
      rw [List.flatMap_cons, hnil, List.nil_append, ih]

theorem replayLog_frame (env : LeaseEnv) (m : MemoryStorage) (records : LogHistory) (n : Nat) :
    (m.replayLog env records n).compacted = m.compacted ∧
    (m.replayLog env records n).applied = n := by
  refine ⟨?_, rfl⟩
  show (records.foldl (fun m r => m.applyRecord env r.1 r.2) m).compacted = m.compacted
  induction records generalizing m with
  | nil => rfl
  | cons p records ih =>
    rw [List.foldl_cons, ih]
    exact (applyRecord_frame env p.1 m p.2).1

/-- Replaying a log gives an index that agrees with the records of the log. -/
theorem index_replayLog (env : LeaseEnv) (hwf : log.WF) :
    IndexInv log.records log.lastRevision 0
      (new.replayLog env log.readAll log.lastRevision).revisions := by
  rw [readAll_eq]
  obtain ⟨a, hall, heq, hinv⟩ := IndexInv.replay hwf.ascending env log.records new
    [] 0 rfl (by simp)
    (fun p hp => (hwf.record_bounds hp).1)
    (IndexInv.empty fun p hp => (hwf.record_bounds hp).1)
  refine IndexInv.advance hwf.ascending hinv ?_ fun p hp => Or.inl (hall p hp)
  rcases heq with rfl | ⟨p, hp, rfl⟩
  · exact Nat.zero_le _
  · exact (hwf.record_bounds hp).2

end Store

/-! ## Records by revision -/

/-- The events of the records, in order. -/
def eventsOf (records : LogHistory) : List Event := records.flatMap fun p => p.2.events

/-- The record of a revision. -/
def recordAt (hist : LogHistory) (r : Nat) : Option LogRecord :=
  (hist.find? fun p => p.1 = r).map Prod.snd

theorem recordAt_of_mem (hasc : Ascending hist) {r : Nat} {x : LogRecord}
    (hx : (r, x) ∈ hist) : recordAt hist r = some x := by
  unfold recordAt
  cases hfind : hist.find? fun p => p.1 = r with
  | none => exact absurd (by simp) (List.find?_eq_none.mp hfind (r, x) hx)
  | some p =>
    have hmem := List.mem_of_find?_eq_some hfind
    have hrev : p.1 = r := by simpa using List.find?_some hfind
    subst hrev
    rw [Option.map_some, hasc.unique hmem hx]

/-- Later records do not change what is at a revision below them. -/
theorem recordAt_append {new : LogHistory} {n r : Nat} (hnew : ∀ p ∈ new, n < p.1)
    (hr : r ≤ n) : recordAt (hist ++ new) r = recordAt hist r := by
  have hnone : new.find? (fun p => p.1 = r) = none := by
    rw [List.find?_eq_none]
    intro p hp
    have := hnew p hp
    simpa using (by omega : p.1 ≠ r)
  rw [recordAt, recordAt, List.find?_append, hnone, Option.or_none]

end CloudEtcd
