/-
# CloudEtcd.Storage.Restart — what a restart brings back after compactions.

A process that works alone commits records of one event each, rotates its log, and compacts: first
`MemoryStorage.Compact`, then the log's `Compact` with the `live` function of the storage.  After
a restart every read is answered from the records the files still hold, so a restart preserves the
reads exactly when those records and the whole history give every key the same state at the compaction
point (`Settled.restartPreserves_iff`).

Index compaction forgets a deleted key, so no record on it is live any more; log compaction then drops
its delete if that lies in a rewritten file, and keeps its put if that lies in a file left alone.
`SafeToCompact` says that this does not happen, and `restart_preserves_iff` that nothing else is
needed.
-/
import CloudEtcd.Lib.Transition
import CloudEtcd.Persistence.Reopen
import CloudEtcd.Storage.AnyRecords

namespace CloudEtcd

open History FilesystemLog MemoryStorage

namespace Store

/-! ## One process -/

/-- `MemoryStorage.Compact` and then, unless there is nothing to do, the log compaction. -/
def compactBoth (s : Store) (watchers : List MemoryStorage.WatcherView) (revision : Nat) : Store :=
  match s.compact watchers revision with
  | (s, none) => s
  | (s, some through) => s.compactLog through

/-- Commit one record for each event, in one batch, and apply them.  A batch that the log refuses
changes nothing. -/
def write (env : LeaseEnv) (s : Store) (events : List Event) : Store :=
  match s.commit s.log.lastRevision (events.map fun e => ⟨[e]⟩) with
  | .error _ => s
  | .ok s => (s.applyUpTo env (fun _ => false) s.log.lastRevision).1

/-- What a process does between its start and its end. -/
inductive Op where
  | write (events : List Event)
  | rotate
  | compact (watchers : List MemoryStorage.WatcherView) (revision : Nat)

/-- One operation. -/
def step (env : LeaseEnv) (s : Store) : Op → Store
  | .write events => s.write env events
  | .rotate => s.rotate
  | .compact watchers revision => s.compactBoth watchers revision

/-- A run of operations. -/
def run (env : LeaseEnv) (s : Store) (ops : List Op) : Store := ops.foldl (step env) s

/-- `NewFilesystemLog` on a directory, and `NewMemoryStorage` with its `ReplayLog` on the log. -/
def boot (env : LeaseEnv) (opts : Options) (dir : List DirEntry) : Option Store :=
  match openDir opts dir with
  | .error _ => none
  | .ok log => (start env log).toOption

/-- A `Get` of a key at a revision. -/
def getAt (s : Store) (k : Bytes) (r : Nat) : Except TxnError RangeResponse :=
  s.mem.get s.log.read s.log.lastRevision { key := some k, revision := r }

/-- Closing the log and starting again succeeds, and every `Get` from the compaction point to the
head has the same result afterwards. -/
def RestartPreserves (env : LeaseEnv) (opts : Options) (s : Store) : Prop :=
  ∃ s', boot env opts s.log.close = some s' ∧
    ∀ k r, s.mem.compacted ≤ r → r ≤ s.log.lastRevision → s'.getAt k r = s.getAt k r

/-- Of no key that the index no longer has at or below the point, the files that a log compaction
leaves alone have a put as the last record there. -/
def SafeToCompact (s : Store) (through : Nat) : Prop :=
  let rest := (s.log.leftAlone through (s.mem.live through)).flatMap LogFile.records
  ∀ p ∈ rest, ∀ e ∈ p.2.events,
    s.mem.revisions.getLatestRevisionByKey e.kv.key through = none →
      stateAt rest through e.kv.key = none

instance (s : Store) (through : Nat) : Decidable (s.SafeToCompact through) :=
  inferInstanceAs (Decidable (∀ p ∈ List.flatMap LogFile.records _,
    ∀ e ∈ (p : Nat × LogRecord).2.events, _ = none → _ = none))

/-- The log compaction that follows a call of `MemoryStorage.Compact`, if there is one, is safe. -/
def CompactsSafely (s : Store) (watchers : List MemoryStorage.WatcherView) (revision : Nat) :
    Prop :=
  match s.compact watchers revision with
  | (_, none) => True
  | (s, some through) => s.SafeToCompact through

instance (s : Store) (watchers : List MemoryStorage.WatcherView) (revision : Nat) :
    Decidable (s.CompactsSafely watchers revision) := by
  unfold CompactsSafely
  split <;> infer_instance

/-! ## The state between operations -/

/-- Between operations everything committed is applied, and every record has at most one event. -/
structure Settled (s : Store) : Prop where
  inv : s.Inv
  applied : s.mem.applied = s.log.lastRevision
  started : 0 < s.log.lastRevision
  positive : ∀ p ∈ s.history, 0 < p.1
  single : ∀ p ∈ s.history, ∀ e ∈ p.2.events, p.2.events = [e]

variable {s : Store}

/-- What `write` does, if the log accepts the batch. -/
theorem Settled.write_cases (h : s.Settled) (env : LeaseEnv) (events : List Event) :
    s.write env events = s ∨
    ∃ new, (s.write env events).Settled ∧
      (s.write env events).history = s.history ++ new ∧
      (s.write env events).log.records = s.log.records ++ new ∧
      (s.write env events).mem.compacted = s.mem.compacted ∧
      ∀ p ∈ new, s.mem.compacted < p.1 := by
  unfold Store.write
  cases hcommit : s.commit s.log.lastRevision (events.map fun e => ⟨[e]⟩) with
  | error e => exact Or.inl rfl
  | ok s' =>
    right
    have hinv := h.inv.commit (by simp) hcommit
    obtain ⟨log, hlog, rfl⟩ := commit_eq_ok hcommit
    obtain ⟨-, -, hrecords, hlast, -⟩ := FilesystemLog.commitBatch_spec h.inv.files hlog
    have hinv' := hinv.applyUpTo env (fun _ => false) log.lastRevision
    refine ⟨numberFrom (s.log.lastRevision + 1) (events.map fun e => ⟨[e]⟩),
      ⟨hinv', (hinv.toHeld.applyUpTo_head env).2, ?_, ?_, ?_⟩, rfl, hrecords, ?_, ?_⟩
    · show 0 < log.lastRevision
      have := h.started
      omega
    · intro p hp
      rcases List.mem_append.mp hp with hp | hp
      · exact h.positive p hp
      · exact Nat.lt_of_lt_of_le (Nat.succ_pos _) (mem_numberFrom hp).1
    · intro p hp e he
      rcases List.mem_append.mp hp with hp | hp
      · exact h.single p hp e he
      · obtain ⟨e', -, heq⟩ := List.mem_map.mp (mem_numberFrom hp).2.2
        rw [← heq] at he ⊢
        rw [List.mem_singleton.mp he]
    · exact (Store.applyNext_frame env _ _ _).2.1
    · intro p hp
      have := h.inv.compacted_le
      have := h.inv.applied_le
      have := (mem_numberFrom hp).1
      omega

theorem Settled.rotate (h : s.Settled) : s.rotate.Settled := by
  have hlast := (FilesystemLog.rotate_frame s.log).2.1
  exact ⟨⟨h.inv.toHeld.rotate, h.inv.wellFormed⟩, h.applied.trans hlast.symm,
    hlast.symm ▸ h.started, h.positive, h.single⟩

variable {through : Nat}

/-- The log compaction of a point that the index has passed drops nothing the index refers to. -/
theorem Inv.compactLog (h : s.Inv) (ht : through ≤ s.mem.compacted) : (s.compactLog through).Inv :=
  ⟨h.toHeld.compactLog ht, h.wellFormed⟩

theorem Settled.compactLog (h : s.Settled) (ht : through ≤ s.mem.compacted) :
    (s.compactLog through).Settled := by
  have hlast : (s.compactLog through).log.lastRevision = s.log.lastRevision :=
    (compact_frame h.inv.files through _).2.2.1
  exact ⟨h.inv.compactLog ht, h.applied.trans hlast.symm, hlast.symm ▸ h.started, h.positive,
    h.single⟩

/-- What `MemoryStorage.Compact` does to the store. -/
theorem Settled.compact_cases (h : s.Settled) (watchers : List MemoryStorage.WatcherView)
    (revision : Nat) :
    s.compact watchers revision = (s, none) ∨
    ∃ s' through, s.compact watchers revision = (s', some through) ∧ s'.Settled ∧
      s'.mem.compacted = through := by
  have hinv : (s.compact watchers revision).1.Inv :=
    ⟨h.inv.toHeld.compact watchers revision, h.inv.wellFormed⟩
  rcases mem_compact_cases s.mem watchers revision with heq | ⟨through, -, -, heq⟩
  · exact Or.inl (by simp [Store.compact, heq])
  · simp only [Store.compact, heq] at hinv ⊢
    exact Or.inr ⟨_, _, rfl, ⟨hinv, h.applied, h.started, h.positive, h.single⟩, rfl⟩

theorem Settled.step (h : s.Settled) (env : LeaseEnv) (op : Op) : (s.step env op).Settled := by
  cases op with
  | write events =>
    show (s.write env events).Settled
    rcases h.write_cases env events with heq | ⟨-, hset, -⟩
    · rw [heq]
      exact h
    · exact hset
  | rotate => exact h.rotate
  | compact watchers revision =>
    show (s.compactBoth watchers revision).Settled
    unfold compactBoth
    rcases h.compact_cases watchers revision with heq | ⟨s', through, heq, hset, hpoint⟩
    · rw [heq]
      exact h
    · rw [heq]
      exact hset.compactLog hpoint.ge

theorem Settled.run (h : s.Settled) (env : LeaseEnv) (ops : List Op) : (s.run env ops).Settled := by
  induction ops generalizing s with
  | nil => exact h
  | cons op ops ih => exact ih (h.step env op)

/-! ## Starting -/

theorem boot_eq_some {env : LeaseEnv} {opts : Options} {dir : List DirEntry}
    (hboot : boot env opts dir = some s) :
    ∃ log, openDir opts dir = .ok log ∧ start env log = .ok s := by
  unfold boot at hboot
  split at hboot
  · cases hboot
  · next log hopen => exact ⟨log, hopen, toOption_eq_some.mp hboot⟩

/-- A process on an empty directory starts settled, with nothing compacted. -/
theorem Settled.of_empty {env : LeaseEnv} {opts : Options} (hboot : boot env opts [] = some s) :
    s.Settled ∧ s.mem.compacted = 0 := by
  obtain ⟨log, hopen, hstart⟩ := boot_eq_some hboot
  obtain ⟨hopened, -, hzero⟩ := opened_of_empty hopen
  have hinv := Inv.start hopened.files hopened.history hopened.cache hstart
  rw [start, if_pos hzero] at hstart
  obtain ⟨s', hcommit, hs⟩ := bind_eq_ok.mp hstart
  cases hs
  obtain ⟨log', hlog, rfl⟩ := commit_eq_ok hcommit
  obtain ⟨-, -, -, hlast, -⟩ := FilesystemLog.commitBatch_spec hopened.files hlog
  have hone : log'.lastRevision = 1 := by
    rw [hlast, show log.lastRevision = 0 from hzero]
    rfl
  refine ⟨⟨hinv, hone.symm, ?_, ?_, ?_⟩, rfl⟩
  · show 0 < log'.lastRevision
    omega
  · exact fun p hp => Nat.lt_of_lt_of_le (Nat.succ_pos _) (mem_numberFrom hp).1
  · intro p hp e he
    obtain ⟨-, -, hmem⟩ := mem_numberFrom hp
    rw [List.mem_singleton.mp hmem] at he
    cases he

/-- A restart succeeds; the new process knows the records of the files and no compaction point. -/
theorem Inv.boot_close (h : s.Inv) (hstarted : 0 < s.log.lastRevision) (env : LeaseEnv)
    (opts : Options) :
    ∃ s', boot env opts s.log.close = some s' ∧ s'.Inv ∧ s'.history = s.log.records ∧
      s'.mem.compacted = 0 ∧ s'.mem.applied = s'.log.lastRevision ∧
      s'.log.lastRevision = s.log.lastRevision ∧
      s'.mem = new.replayLog env s.log.records s.log.lastRevision := by
  obtain ⟨log, hopen, hwf, hrecords, hlast, hcache⟩ := openDir_close h.files opts
  have hne : ¬ log.lastRevision = 0 := by omega
  have hstart : Store.start env log =
      .ok ⟨new.replayLog env log.readAll log.lastRevision, log, log.records⟩ :=
    if_neg hne
  obtain ⟨hc, ha⟩ := replayLog_frame env new log.readAll log.lastRevision
  refine ⟨_, ?_, Inv.start hwf (hrecords ▸ h.records_wellFormed) hcache hstart, hrecords,
    hc, ha, hlast, ?_⟩
  · rw [boot, hopen]
    simp only [hstart, Except.toOption]
  · rw [readAll_eq, hrecords, hlast]

/-! ## Reads before and after -/

/-- The revision that a `Get` at `r` reads at: 0 stands for the head. -/
def readPoint (s : Store) (r : Nat) : Nat := if r = 0 then s.log.lastRevision else r

/-- In the readable window a `Get` returns the state of the key in the history. -/
theorem Inv.getAt_eq (h : s.Inv) (happlied : s.mem.applied = s.log.lastRevision) (k : Bytes)
    {r : Nat} (hc : s.mem.compacted ≤ r) (hr : r ≤ s.log.lastRevision) :
    s.getAt k r = .ok (getResponse { key := some k, revision := r } (s.readPoint r)
      (stateAt s.history (s.readPoint r) k)) := by
  have hpoint : s.mem.compacted ≤ s.readPoint r ∧ s.readPoint r ≤ s.mem.applied := by
    unfold readPoint
    split <;> omega
  have hat : s.mem.readAt s.log.lastRevision { key := some k, revision := r } =
      .ok (s.readPoint r) := by
    unfold readAt readPoint
    by_cases hzero : r = 0
    · simp [hzero]
    · simp [hzero, checkReadRevision, not_lt.mpr hc, not_lt.mpr hr,
        Except.map, Nat.pos_iff_ne_zero]
  rw [getAt, h.coherent.get_eq rfl rfl rfl hat hpoint.2,
    h.coherent.seen_eq_stateAt hpoint.1 hpoint.2]

theorem getResponse_inj {req : RangeRequest} (hkeys : req.keysOnly = false) {q : Nat}
    {a b : Option KeyValue} : getResponse req q a = getResponse req q b ↔ a = b := by
  refine ⟨fun heq => ?_, fun heq => heq ▸ rfl⟩
  cases a <;> cases b <;> simp_all [getResponse, viewKv]

variable {k : Bytes}

/-- Records that are complete above a point give every key the state it has in the history, if they do
at the point. -/
theorem stateAt_of_point {hist records : LogHistory} {point q : Nat}
    (hasc : Ascending hist) (hasc' : Ascending records) (hsub : ∀ p ∈ records, p ∈ hist)
    (htail : ∀ p ∈ hist, point < p.1 → p ∈ records) (hle : point ≤ q)
    (hat : stateAt records point k = stateAt hist point k) :
    stateAt records q k = stateAt hist q k := by
  have hwrites : ∀ {r}, Writes records k r → Writes hist k r := by
    rintro r ⟨x, hx, ht⟩
    exact ⟨x, hsub _ hx, ht⟩
  by_cases hquiet : ∀ r, point < r → r ≤ q → ¬ Writes hist k r
  · -- Nothing happens to the key above the point.
    have hhist := lastEvent_eq_of_quiet hasc hle hquiet
    have hrecords := lastEvent_eq_of_quiet hasc' hle fun r h1 h2 hwr => hquiet r h1 h2 (hwrites hwr)
    rw [stateAt, stateAt, hhist, hrecords]
    exact hat
  · -- The key's last write is above the point, so the records have it.
    push Not at hquiet
    obtain ⟨w, hpw, hwq, hwrite⟩ := hquiet
    have hlast : lastEvent records k q = lastEvent hist k q := by
      cases hl : lastEvent hist k q with
      | none => exact absurd hwrite (lastEvent_eq_none_iff.mp hl w hwq)
      | some p =>
        obtain ⟨r, e⟩ := p
        obtain ⟨⟨x, hx, hr, hon⟩, hmax⟩ := (lastEvent_eq_some_iff_of_ascending hasc).mp hl
        have hwr := hmax w hwq hwrite
        refine (lastEvent_eq_some_iff_of_ascending hasc').mpr
          ⟨⟨x, htail _ hx (hpw.trans_le hwr), hr, hon⟩, fun r' hr' h' => ?_⟩
        exact hmax r' hr' (hwrites h')
    rw [stateAt, stateAt, hlast]

/-- A key has no state before the first record. -/
theorem stateAt_zero {hist : LogHistory} (hpos : ∀ p ∈ hist, 0 < p.1) (k : Bytes) :
    stateAt hist 0 k = none := by
  have hnone : lastEvent hist k 0 = none := by
    rw [lastEvent_eq_none_iff]
    rintro r hr ⟨x, hx, -⟩
    exact absurd (hpos _ hx) (not_lt.mpr hr)
  simp [stateAt, hnone, liveKv]

/-- A restart preserves the reads exactly if the files still give every key its state at the
compaction point. -/
theorem Settled.restartPreserves_iff (h : s.Settled) (env : LeaseEnv) (opts : Options) :
    s.RestartPreserves env opts ↔
      ∀ k, stateAt s.log.records s.mem.compacted k = stateAt s.history s.mem.compacted k := by
  obtain ⟨s', hboot, hinv, hhist, hzero, happlied, hlast, -⟩ := h.inv.boot_close h.started env opts
  -- Both reads, and the point they read at.
  have hreads : ∀ k r, s.mem.compacted ≤ r → r ≤ s.log.lastRevision →
      (s'.getAt k r = s.getAt k r ↔
        stateAt s.log.records (s.readPoint r) k = stateAt s.history (s.readPoint r) k) := by
    intro k r hc hr
    have hpoint : s'.readPoint r = s.readPoint r := by
      rw [readPoint, readPoint, hlast]
    rw [hinv.getAt_eq happlied k (hzero ▸ Nat.zero_le r) (hlast.symm ▸ hr),
      h.inv.getAt_eq h.applied k hc hr, hpoint, hhist, Except.ok.injEq, getResponse_inj rfl]
  constructor
  · rintro ⟨s'', hboot', hsame⟩ k
    obtain rfl : s' = s'' := Option.some.inj (hboot.symm.trans hboot')
    by_cases hc : s.mem.compacted = 0
    · rw [hc, stateAt_zero h.positive, stateAt_zero]
      exact fun p hp => h.positive p (h.inv.recordsIn p hp)
    · have hle := h.inv.compacted_le
      have happ := h.applied
      have heq := (hreads k s.mem.compacted le_rfl (by omega)).mp
        (hsame k _ le_rfl (by omega))
      rwa [readPoint, if_neg hc] at heq
  · intro hat
    refine ⟨s', hboot, fun k r hc hr => (hreads k r hc hr).mpr ?_⟩
    refine stateAt_of_point h.inv.ascending h.inv.files.ascending h.inv.recordsIn h.inv.tail
      ?_ (hat k)
    unfold readPoint
    split <;> omega

/-! ## What a log compaction keeps -/

/-- Of a key that the index has at the compaction point, the files have the last record there. -/
theorem Inv.stateAt_of_indexed (h : s.Inv) {r : Nat}
    (hl : s.mem.revisions.getLatestRevisionByKey k s.mem.compacted = some r) :
    stateAt s.log.records s.mem.compacted k = stateAt s.history s.mem.compacted k := by
  obtain ⟨e, hlast⟩ := (h.index k).latest_some h.ascending h.compacted_le hl
  obtain ⟨⟨x, hx, hr, he, hk⟩, hmax⟩ := (lastEvent_eq_some_iff h.wellFormed).mp hlast
  obtain ⟨y, hy⟩ := h.indexed k r (Timeline.mem_of_latest hl)
  obtain rfl := h.wellFormed.unique hx (h.recordsIn _ hy)
  have hlast' : lastEvent s.log.records k s.mem.compacted = some (r, e) := by
    refine (lastEvent_eq_some_iff h.records_wellFormed).mpr ⟨⟨x, hy, hr, he, hk⟩, ?_⟩
    rintro r' hr' ⟨z, hz, ht⟩
    exact hmax r' hr' ⟨z, h.recordsIn _ hz, ht⟩
  rw [stateAt, stateAt, hlast, hlast']

/-- Of a key that the index no longer has at the point, a log compaction keeps the records in the
files it leaves alone and no others. -/
theorem Settled.stateAt_compactLog (h : s.Settled) (ht : through ≤ s.mem.compacted)
    (hl : s.mem.revisions.getLatestRevisionByKey k through = none) :
    stateAt (s.compactLog through).log.records through k =
      stateAt ((s.log.leftAlone through (s.mem.live through)).flatMap LogFile.records)
        through k := by
  have hrest : Ascending
      ((s.log.leftAlone through (s.mem.live through)).flatMap LogFile.records) :=
    h.inv.files.ascending.sublist ((leftAlone_sublist h.inv.files through _).flatMap _)
  rw [stateAt, stateAt, lastEvent_congr (h.inv.compactLog ht).files.ascending hrest]
  rintro r - x ⟨e, he, hk⟩
  refine (mem_records_compact h.inv.files).trans (or_iff_left ?_)
  rintro ⟨g, hg, -, hx, hlive⟩
  -- The record is on this key alone, and the key has no entry that could make it live.
  have hmem : (r, x) ∈ s.history := by
    obtain ⟨f, hf, hxf⟩ := List.mem_flatMap.mp hx
    apply h.inv.recordsIn
    rw [records_eq]
    exact List.mem_append_left _
      (List.mem_flatMap.mpr ⟨f, (files_of_compactionGroup hg hf).1, hxf⟩)
  have hkey : e.kv.key = k := hk
  have hevents : x.events = [e] := h.single _ hmem e he
  simp [isLive, hevents, live, hkey, hl] at hlive

/-- After a log compaction at the index's point, a restart preserves the reads exactly if the
compaction was safe. -/
theorem Settled.compactLog_preserves_iff (h : s.Settled) (env : LeaseEnv) (opts : Options)
    (ht : s.mem.compacted = through) :
    (s.compactLog through).RestartPreserves env opts ↔ s.SafeToCompact through := by
  subst ht
  have hset := h.compactLog le_rfl
  rw [hset.restartPreserves_iff]
  show (∀ k, stateAt (s.compactLog s.mem.compacted).log.records s.mem.compacted k =
    stateAt s.history s.mem.compacted k) ↔ _
  -- A key without an entry at the point does not exist there.
  have habsent : ∀ k, s.mem.revisions.getLatestRevisionByKey k s.mem.compacted = none →
      stateAt s.history s.mem.compacted k = none := fun k hl =>
    (h.inv.index k).latest_none h.inv.ascending le_rfl h.inv.compacted_le hl
  constructor
  · intro hat p _ e _ hl
    rw [← h.stateAt_compactLog le_rfl hl, hat, habsent _ hl]
  · intro hsafe k
    cases hl : s.mem.revisions.getLatestRevisionByKey k s.mem.compacted with
    | some r => exact hset.inv.stateAt_of_indexed hl
    | none =>
      rw [h.stateAt_compactLog le_rfl hl, habsent k hl]
      by_contra hne
      -- A key with a state has a record among those left alone.
      obtain ⟨kv, hkv⟩ := Option.ne_none_iff_exists'.mp hne
      cases hlast : lastEvent ((s.log.leftAlone s.mem.compacted
          (s.mem.live s.mem.compacted)).flatMap LogFile.records) k s.mem.compacted with
      | none => simp [stateAt, hlast, liveKv] at hkv
      | some p =>
        obtain ⟨x, hx, -, he, hk⟩ := mem_eventsOn.mp (List.mem_of_getLast? hlast)
        obtain rfl : p.2.kv.key = k := hk
        exact hne (hsafe _ hx p.2 he hl)

/-! ## Runs -/

theorem Settled.write_preserves (h : s.Settled) (env env' : LeaseEnv) (opts : Options)
    (events : List Event) (hs : s.RestartPreserves env' opts) :
    (s.write env events).RestartPreserves env' opts := by
  rcases h.write_cases env events with heq | ⟨new, hset, hhist, hrecords, hc, hnew⟩
  · rwa [heq]
  · -- The new records are above the point.
    rw [hset.restartPreserves_iff, hhist, hrecords, hc]
    rw [h.restartPreserves_iff] at hs
    intro k
    rw [stateAt, stateAt, lastEvent_append hnew, lastEvent_append hnew]
    exact hs k

theorem Settled.rotate_preserves (h : s.Settled) (env : LeaseEnv) (opts : Options)
    (hs : s.RestartPreserves env opts) : s.rotate.RestartPreserves env opts := by
  rw [h.rotate.restartPreserves_iff]
  rw [h.restartPreserves_iff] at hs
  show ∀ k, stateAt s.log.rotate.records _ k = _
  rw [(FilesystemLog.rotate_frame s.log).1]
  exact hs

theorem Settled.compactBoth_preserves_iff (h : s.Settled) (env : LeaseEnv) (opts : Options)
    (watchers : List MemoryStorage.WatcherView) (revision : Nat)
    (hs : s.RestartPreserves env opts) :
    (s.compactBoth watchers revision).RestartPreserves env opts ↔
      s.CompactsSafely watchers revision := by
  unfold compactBoth CompactsSafely
  rcases h.compact_cases watchers revision with heq | ⟨s', through, heq, hset, hpoint⟩
  · rw [heq]
    exact iff_of_true hs trivial
  · rw [heq]
    exact hset.compactLog_preserves_iff env opts hpoint

theorem run_concat (env : LeaseEnv) (s : Store) (ops : List Op) (op : Op) :
    s.run env (ops ++ [op]) = (s.run env ops).step env op := by
  simp [Store.run]

/-- For every history of puts and deletes, every placement of rotations and every sequence of
compactions: a restart preserves the reads in every state on the way exactly if every log compaction
on the way is safe. -/
theorem restart_preserves_iff (env env' : LeaseEnv) (opts opts' : Options) {s₀ : Store}
    (hboot : boot env opts [] = some s₀) (ops : List Op) :
    (∀ done, done <+: ops → (s₀.run env done).RestartPreserves env' opts') ↔
      ∀ done watchers revision, done ++ [.compact watchers revision] <+: ops →
        (s₀.run env done).CompactsSafely watchers revision := by
  obtain ⟨hstart, hzero⟩ := Settled.of_empty hboot
  have hset : ∀ done, (s₀.run env done).Settled := fun done => hstart.run env done
  constructor
  · intro hall done watchers revision hdone
    have hafter := hall _ hdone
    rw [run_concat] at hafter
    exact ((hset done).compactBoth_preserves_iff env' opts' watchers revision
      (hall done ((List.prefix_append _ _).trans hdone))).mp hafter
  · intro hsafe done
    -- Along the run: nothing is compacted at the start, and each operation keeps what it should.
    induction done using List.reverseRecOn with
    | nil =>
      intro _
      rw [(hset []).restartPreserves_iff]
      show ∀ k, stateAt s₀.log.records s₀.mem.compacted k = stateAt s₀.history s₀.mem.compacted k
      rw [hzero]
      intro k
      rw [stateAt_zero hstart.positive, stateAt_zero]
      exact fun p hp => hstart.positive p (hstart.inv.recordsIn p hp)
    | append_singleton done op ih =>
      intro hdone
      have hbefore := ih ((List.prefix_append _ _).trans hdone)
      rw [run_concat]
      cases op with
      | write events => exact (hset done).write_preserves env env' opts' events hbefore
      | rotate => exact (hset done).rotate_preserves env' opts' hbefore
      | compact watchers revision =>
        exact ((hset done).compactBoth_preserves_iff env' opts' watchers revision
          hbefore).mpr (hsafe done watchers revision hdone)

/-- The puts of the one-byte keys `first` to `first + n - 1`, none of which exists, as the records
from `revision` on. -/
def putRow (first n revision : Nat) : List Event :=
  (List.range n).map fun i =>
    putEvent { key := [UInt8.ofNat (first + i)], value := [7] } (revision + i) none

/-- The delete of a one-byte key that was put at `created`. -/
def deleteOf (key : UInt8) (created revision : Nat) : Event :=
  deleteEvent { key := [key] } revision
    (putEvent { key := [key], value := [7] } created none)

/-- Writes after each of which the active file is full.  The file of the eleven puts has one dead
record, the overwritten put of the key 1, and is left alone; the put and the delete of the key 20 are
rewritten together. -/
def overwriteAndDelete : List Op :=
  [.write (putRow 0 1 2), .write (putRow 1 11 3), .write (putRow 1 1 14),
    .write (putRow 20 1 15), .write [deleteOf 20 15 16]]

theorem restart_preserves_overwriteAndDelete :
    ∃ s₀, boot noLeases ⟨0, 1⟩ [] = some s₀ ∧
      (s₀.run noLeases (overwriteAndDelete ++ [.compact [] 16])).mem.compacted = 16 ∧
      (s₀.run noLeases (overwriteAndDelete ++ [.compact [] 16])).RestartPreserves
        noLeases ⟨0, 1⟩ := by
  obtain ⟨s₀, hboot, hpoint, hsafe⟩ : ∃ s₀, boot noLeases ⟨0, 1⟩ [] = some s₀ ∧
      (s₀.run noLeases (overwriteAndDelete ++ [.compact [] 16])).mem.compacted = 16 ∧
      (s₀.run noLeases overwriteAndDelete).CompactsSafely [] 16 := by
    decide +kernel
  refine ⟨s₀, hboot, hpoint, ?_⟩
  refine (restart_preserves_iff noLeases noLeases ⟨0, 1⟩ ⟨0, 1⟩ hboot _).mpr ?_ _
    (List.prefix_refl _)
  intro done watchers revision hdone
  rcases List.prefix_concat_iff.mp hdone with heq | hin
  · -- The one compaction of the run.
    obtain ⟨rfl, hop⟩ := List.append_inj' heq rfl
    cases hop
    exact hsafe
  · have hmem : Op.compact watchers revision ∈ overwriteAndDelete :=
      hin.subset (by simp)
    simp [overwriteAndDelete] at hmem

/-- The same with a delete of the key 1 in a file of its own: the file with its put has one dead record
in eleven and is left alone, the file with its delete is rewritten. -/
def deleteInOwnFile : List Op :=
  [.write (putRow 0 1 2), .write (putRow 1 11 3), .write [deleteOf 1 3 14], .compact [] 14]

/-- A deleted key comes back: absent at the compaction point before the restart, there again after
it. -/
theorem restart_brings_back_deleted :
    ∃ s₀ s', boot noLeases ⟨0, 1⟩ [] = some s₀ ∧
      boot noLeases ⟨0, 1⟩ (s₀.run noLeases deleteInOwnFile).log.close = some s' ∧
      (s₀.run noLeases deleteInOwnFile).mem.compacted = 14 ∧
      (s₀.run noLeases deleteInOwnFile).getAt [1] 14 = .ok { header := createHeader 14 } ∧
      s'.getAt [1] 14 = .ok
        { header := createHeader 14
          kvs := [{ key := [1], createRevision := 3, modRevision := 3, version := 1, value := [7] }]
          count := 1 } :=
  by decide +kernel

end Store

end CloudEtcd
