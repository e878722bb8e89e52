/-
# CloudEtcd.System.LogCompaction — a log compaction that runs while the index moves.

Between two `live` calls of a background compaction, records may be committed and applied and the
index may be compacted further.  `JobInv` is what survives: the files still to be handled stand where
they stood, and every record already passed over is one the index does not refer to.  The second
part is stable because at or below the compaction point the index only forgets (`Store.Later`);
`JobInv.step` then says that the swap at the end of a group drops nothing that
the index needs.
-/
import CloudEtcd.Persistence.CompactFiles
import CloudEtcd.Storage.AnyRecords
import CloudEtcd.System.Model

namespace CloudEtcd

open History FilesystemLog

/-! ## Passing over records -/

/-- The index refers to the record on none of its keys. -/
def Forgotten (m : MemoryStorage) (p : Nat × LogRecord) : Prop :=
  ∀ k, Touches p.2 k → p.1 ∉ m.revisions.revisionsOf k

/-- A scan of `records` in progress: what it passed over and did not keep is forgotten, and so is
the first record to come as far as its events were asked about. -/
structure ScanInv (m : MemoryStorage) (records : LogHistory) (scan : Scan) : Prop where
  split : ∃ passed, records = passed ++ scan.todo ∧ scan.kept.Sublist passed ∧
    ∀ p ∈ passed, p ∉ scan.kept → Forgotten m p
  partly : ∀ p rest, scan.todo = p :: rest →
    ∀ ev ∈ p.2.events.take scan.asked, p.1 ∉ m.revisions.revisionsOf ev.kv.key

theorem ScanInv.start (m : MemoryStorage) (records : LogHistory) :
    ScanInv m records (Scan.start records) :=
  ⟨⟨[], rfl, by simp [Scan.start], by simp⟩, by simp [Scan.start]⟩

variable {s : Store} {records : LogHistory}

theorem ScanInv.later {s' : Store} (hlater : s.Later s') {scan : Scan}
    (hle : ∀ p ∈ records, p.1 ≤ s.mem.compacted) (h : ScanInv s.mem records scan) :
    ScanInv s'.mem records scan := by
  obtain ⟨passed, hsplit, hsub, hdrop⟩ := h.split
  refine ⟨⟨passed, hsplit, hsub, fun p hp hnot k hk hmem => ?_⟩, fun p rest htodo ev hev hmem => ?_⟩
  · have hpr : p ∈ records := by simp [hsplit, hp]
    exact hdrop p hp hnot k hk (hlater.forgets k p.1 (hle p hpr) hmem)
  · have hpr : p ∈ records := by simp [hsplit, htodo]
    exact h.partly p rest htodo ev hev (hlater.forgets _ p.1 (hle p hpr) hmem)

/-- One step of a scan, with a `live` that holds of what the index refers to. -/
theorem ScanInv.step {m : MemoryStorage} {scan : Scan} {live : LiveFunc}
    (hlive : ∀ p ∈ records, ∀ k, p.1 ∈ m.revisions.revisionsOf k → live k p.1 = true)
    (h : ScanInv m records scan) : ScanInv m records (scan.step live) := by
  obtain ⟨passed, hsplit, hsub, hdrop⟩ := h.split
  obtain ⟨todo, asked, kept, dead⟩ := scan
  cases todo with
  | nil => exact h
  | cons p rest =>
    have hmem : p ∈ records := by simp [hsplit]
    have hsplit' : records = (passed ++ [p]) ++ rest := by simpa using hsplit
    unfold Scan.step
    dsimp only
    cases hev : p.2.events[asked]? with
    | some ev =>
      by_cases hl : live ev.kv.key p.1 = true
      · -- A live event: the record is kept.
        simp only [hl, if_true]
        refine ⟨⟨passed ++ [p], hsplit', hsub.append (List.Sublist.refl _), ?_⟩, by simp⟩
        intro q hq hnot
        rw [List.mem_append, not_or] at hnot
        rcases List.mem_append.mp hq with hq | hq
        · exact hdrop q hq hnot.1
        · exact absurd hq hnot.2
      · -- Not live: the index does not refer to the record on this event's key.
        simp only [hl, Bool.false_eq_true, if_false]
        refine ⟨⟨passed, hsplit, hsub, hdrop⟩, ?_⟩
        intro q rest' htodo ev' hev'
        cases htodo
        rw [List.take_add_one, hev, Option.toList_some, List.mem_append] at hev'
        rcases hev' with hev' | hev'
        · exact h.partly p rest rfl ev' hev'
        · obtain rfl := List.mem_singleton.mp hev'
          exact fun hin => hl (hlive p hmem _ hin)
    | none =>
      -- All events were asked about: the record is dead.
      refine ⟨⟨passed ++ [p], hsplit', hsub.trans (List.sublist_append_left _ _), ?_⟩, by simp⟩
      intro q hq hnot
      rcases List.mem_append.mp hq with hq | hq
      · exact hdrop q hq hnot
      · obtain rfl := List.mem_singleton.mp hq
        rintro k ⟨ev, hevmem, rfl⟩
        apply h.partly q rest rfl ev
        rw [List.take_of_length_le (by simpa using hev)]
        exact hevmem

/-! ## The running compaction -/

/-- What holds of a running compaction with point `through`. -/
def JobInv (s : Store) (through : Nat) : Compaction → Prop
  | .measuring _ file todo measured =>
    (∃ rest, s.log.closed = measured.map Measured.file ++ file :: todo ++ rest) ∧
    ∀ f ∈ measured.map Measured.file ++ file :: todo, f.last ≤ through
  | .rewriting scan group todo =>
    group ≠ [] ∧
    (∃ before rest, s.log.closed = before ++ group ++ todo.flatMap Group.files ++ rest) ∧
    (∀ f ∈ group ++ todo.flatMap Group.files, f.last ≤ through) ∧
    ScanInv s.mem (group.flatMap LogFile.records) scan

theorem ScanInv.of {m : MemoryStorage} {scan : Scan}
    (h : ScanInv m records scan) : scan.Of records := by
  obtain ⟨passed, hsplit, hsub, -⟩ := h.split
  exact ⟨passed, hsplit, hsub⟩

variable {through : Nat} {job : Compaction}

theorem JobInv.placed (h : JobInv s through job) : Placed s.log.closed through job := by
  cases job with
  | measuring scan file todo measured => exact h
  | rewriting scan group todo => exact ⟨h.1, h.2.1, h.2.2.1, h.2.2.2.of⟩

theorem JobInv.of_placed (h : Placed s.log.closed through job)
    (hscan : ∀ scan group todo, job = .rewriting scan group todo →
      ScanInv s.mem (group.flatMap LogFile.records) scan) : JobInv s through job := by
  cases job with
  | measuring scan file todo measured => exact h
  | rewriting scan group todo => exact ⟨h.1, h.2.1, h.2.2.1, hscan scan group todo rfl⟩

variable {group : List LogFile}

theorem JobInv.scan {scan : Scan}
    {todo : List Group} (h : JobInv s through (.rewriting scan group todo)) :
    ScanInv s.mem (group.flatMap LogFile.records) scan := h.2.2.2

/-- The records of the group lie at or below the point. -/
theorem JobInv.records_le (hfiles : s.log.WF) {scan : Scan}
    {todo : List Group} (h : JobInv s through (.rewriting scan group todo)) :
    ∀ p ∈ group.flatMap LogFile.records, p.1 ≤ through := by
  obtain ⟨-, ⟨before, rest, hrest⟩, hle, -⟩ := h
  refine FilesystemLog.records_le hfiles _ (fun f hf => ?_) fun f hf => hle f (List.mem_append_left _ hf)
  simp [hrest, hf]

/-- Steps of others leave the invariant of a running compaction alone. -/
theorem JobInv.later {s' : Store} (hfiles : s.log.WF) (hlater : s.Later s')
    (hthrough : through ≤ s.mem.compacted) (hclosed : ∃ fs, s'.log.closed = s.log.closed ++ fs)
    (h : JobInv s through job) : JobInv s' through job := by
  obtain ⟨fs, hfs⟩ := hclosed
  refine JobInv.of_placed (hfs ▸ h.placed.later fs) fun scan group todo hjob => ?_
  subst hjob
  exact h.scan.later hlater fun p hp => (h.records_le hfiles p hp).trans hthrough

theorem JobInv.start (hfiles : s.log.WF)
    (hstart : Compaction.start s.log through = some job) : JobInv s through job := by
  refine JobInv.of_placed (Placed.start hfiles hstart) fun scan group todo hjob => ?_
  subst hjob
  unfold Compaction.start at hstart
  split at hstart <;> cases hstart

/-- The log after a step of a compaction: as it was, or with a group of files replaced by one that lacks
only records which the index does not refer to. -/
def Replaces (s : Store) (through : Nat) (log : FilesystemLog) : Prop :=
  log = s.log ∨ ∃ before group rest kept, s.log.closed = before ++ group ++ rest ∧ group ≠ [] ∧
    kept.Sublist (group.flatMap LogFile.records) ∧ (∀ f ∈ group, f.last ≤ through) ∧
    (∀ p ∈ group.flatMap LogFile.records, p ∉ kept → p.1 ≤ through ∧ Forgotten s.mem p) ∧
    log = s.log.compactGroup group kept

/-- A step of the running compaction drops nothing that the index refers to. -/
theorem JobInv.step (hfiles : s.log.WF)
    (hlive : ∀ k, ∀ r ∈ s.mem.revisions.revisionsOf k, r ≤ through →
      s.mem.live through k r = true)
    (h : JobInv s through job) :
    let r := job.step s.log (s.mem.live through)
    Replaces s through r.1 ∧ ∀ job', r.2 = some job' → JobInv { s with log := r.1 } through job' := by
  obtain ⟨hlog, hjob⟩ := h.placed.step hfiles (s.mem.live through)
  refine ⟨hlog.imp id ?_, fun job' hjob' => JobInv.of_placed (hjob job' hjob') ?_⟩
  · rintro ⟨scan, before, group, rest, hswap, heq⟩
    refine ⟨before, group, rest, scan.kept, hswap.closed, hswap.nonempty, hswap.kept, hswap.le,
      fun p hp hnot => ?_, heq⟩
    obtain ⟨todo, rfl⟩ := hswap.job
    obtain ⟨passed, hsplit, -, hdrop⟩ := h.scan.split
    rw [hswap.done, List.append_nil] at hsplit
    exact ⟨h.records_le hfiles p hp, hdrop p (hsplit ▸ hp) hnot⟩
  · intro scan group todo heq
    subst heq
    rcases rewriting_of_step hjob' with rfl | ⟨scan, rfl, rfl, -⟩
    · exact ScanInv.start _ _
    · exact h.scan.step fun p hp k hk => hlive k p.1 hk (h.records_le hfiles p hp)

variable {log : FilesystemLog}

/-- The step keeps the head. -/
theorem Replaces.lastRevision
    (h : Replaces s through log) : log.lastRevision = s.log.lastRevision := by
  rcases h with rfl | ⟨before, group, rest, kept, -, -, -, -, -, rfl⟩
  · rfl
  · rfl

/-- The step keeps what holds of any records. -/
theorem Replaces.held (hheld : s.Held) (hthrough : through ≤ s.mem.compacted)
    (h : Replaces s through log) : Store.Held { s with log := log } := by
  rcases h with rfl | ⟨before, group, rest, kept, hclosed, hne, hsub, -, hdrop, rfl⟩
  · exact hheld
  · refine hheld.compactGroup hclosed hne hsub fun p hp hnot => ?_
    exact ⟨(hdrop p hp hnot).1.trans hthrough, (hdrop p hp hnot).2⟩

end CloudEtcd
