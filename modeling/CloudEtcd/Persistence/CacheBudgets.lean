/-
# CloudEtcd.Persistence.CacheBudgets — the log under two cache budgets.

`GetLogEntry` asks the cache before the files, and no compaction tells the cache what it drops.  As other steps
come between its sections (`Reading`), a revision may also get into the cache after it was dropped.

Two logs with the same options but for `CacheBytes` take the same commits, rotations and compaction steps and
the same sections of `GetLogEntry` calls.  Their files are the same throughout.  As long as no compaction drops
a revision that one of the caches holds, or replaces a file while a call is about to read it or to cache a
record of it, a call answers alike in both and refuses what was discarded (`answers_ignore_budget`).
-/
import CloudEtcd.Lib.Transition
import CloudEtcd.Persistence.CompactFiles
import CloudEtcd.Persistence.PointReads
import CloudEtcd.Persistence.Reading

namespace CloudEtcd

namespace FilesystemLog

variable {l l' : FilesystemLog} {r : Nat}

/-! ## The files -/

/-- `findFile`: the file with the revision in its range, searched from the end. -/
def findFile (l : FilesystemLog) (revision : Nat) : Option LogFile :=
  (l.files.reverse.find? fun f => f.first ≤ revision).filter fun f => revision ≤ f.last

theorem read_eq (l : FilesystemLog) (r : Nat) : l.read r = (l.cache.get r).2.elim (l.fileEntry r) .ok := by
  unfold read getLogEntry
  split
  · next hget => rw [hget]; rfl
  · next hget =>
    rw [hget]
    split
    · next hfile => exact hfile.symm
    · next hfile => split <;> exact hfile.symm

/-- A cache of records that the files have makes no difference. -/
theorem read_eq_fileEntry (h : l.WF) (hc : l.CacheIn l.records) (r : Nat) : l.read r = l.fileEntry r := by
  rw [read_eq]
  cases hget : (l.cache.get r).2 with
  | none => rfl
  | some record =>
    obtain ⟨it, hit, rfl, rfl⟩ := (l.cache.get_spec r).2 record hget
    exact ((fileEntry_eq_ok h).mpr (hc it hit)).symm

/-- A revision that a compaction has dropped. -/
def Discarded (l : FilesystemLog) (r : Nat) : Prop :=
  1 ≤ r ∧ r ≤ l.lastRevision ∧ ∀ x, (r, x) ∉ l.records

/-- The files refuse it. -/
theorem fileEntry_discarded (h : l.WF) (hr : l.Discarded r) : l.fileEntry r = .error (.compacted r) := by
  obtain ⟨h1, h2, hnone⟩ := hr
  obtain ⟨f, hf, hfirst, hlast⟩ := h.exists_file h1 h2
  have hnot : ∀ x, (r, x) ∉ f.records := fun x hx => hnone x (List.mem_flatMap.mpr ⟨f, hf, hx⟩)
  unfold fileEntry
  rw [h.find_files hf hfirst hlast]
  simp only [hlast, if_true]
  unfold LogFile.entry
  cases hs : f.sparse with
  | true =>
    simp only [if_true]
    split
    · next y hy =>
      refine if_neg fun heq => hnot y.2 ?_
      rw [← heq]
      exact List.mem_of_find?_eq_some hy
    · rfl
  | false =>
    -- A dense file has all revisions of its range.
    obtain ⟨hrev, hend⟩ := (h.file_wf hf).dense hs
    have hmem : r ∈ f.records.map Prod.fst := by
      rw [hrev, List.mem_range'_1]
      omega
    obtain ⟨y, hy, rfl⟩ := List.mem_map.mp hmem
    exact absurd hy (hnot y.2)

/-- `commitBatch`, also when the batch is refused. -/
def commit (l : FilesystemLog) (position : Nat) (batch : List LogRecord) : FilesystemLog :=
  match l.commitBatch position batch with
  | .ok l' => l'
  | .error _ => l

theorem commit_eq (l : FilesystemLog) (position : Nat) (batch : List LogRecord) :
    l.commit position batch =
      if batch.isEmpty = true ∨ position ≠ l.lastRevision then l
      else if l.opts.rotateBytes ≤ (l.published batch).active.size then (l.published batch).rotate
      else l.published batch := by
  unfold commit commitBatch
  by_cases hempty : batch.isEmpty = true
  · simp [hempty]
  · by_cases hposition : position = l.lastRevision
    · simp only [hempty, hposition]
      dsimp only [published]
      split_ifs <;> simp_all
    · simp [hempty, hposition]

/-- The log grows: what the files had they have, and the cache still agrees with them. -/
structure Grows (l l' : FilesystemLog) : Prop where
  wf : l'.WF
  closed : ∃ fs, l'.closed = l.closed ++ fs
  records : ∀ p ∈ l.records, p ∈ l'.records
  cache : l.CacheIn l.records → l'.CacheIn l'.records

theorem grows_commit (h : l.WF) (position : Nat) (batch : List LogRecord) :
    Grows l (l.commit position batch) := by
  unfold commit
  split
  · next l' hcommit =>
    obtain ⟨-, hwf, hrecords, -, hcache, hclosed, -⟩ := commitBatch_spec h hcommit
    refine ⟨hwf, hclosed, fun p hp => ?_, fun hin it hit => ?_⟩
    · rw [hrecords]
      exact List.mem_append_left _ hp
    · rw [hrecords]
      rcases hcache it hit with hold | hnew
      · exact List.mem_append_left _ (hin it hold)
      · exact List.mem_append_right _ hnew
  · exact ⟨h, ⟨[], (List.append_nil _).symm⟩, fun _ hp => hp, id⟩

theorem grows_rotate (h : l.WF) : Grows l l.rotate := by
  obtain ⟨hrecords, -, hcache, -⟩ := rotate_frame l
  refine ⟨wf_rotate h, rotate_closed l, fun p hp => hrecords ▸ hp, fun hin it hit => ?_⟩
  rw [hcache] at hit
  rw [hrecords]
  exact hin it hit

/-- Same files, and the same size at which the active file is closed. -/
structure SameFiles (l l' : FilesystemLog) : Prop where
  closed : l.closed = l'.closed
  active : l.active = l'.active
  lastRevision : l.lastRevision = l'.lastRevision
  rotateBytes : l.opts.rotateBytes = l'.opts.rotateBytes

namespace SameFiles

section

variable (h : SameFiles l l')
include h

theorem files : l.files = l'.files := by
  rw [FilesystemLog.files, FilesystemLog.files, h.closed, h.active]

theorem records : l.records = l'.records := by
  rw [FilesystemLog.records, FilesystemLog.records, h.files]

theorem fileEntry (r : Nat) : l.fileEntry r = l'.fileEntry r := by
  unfold FilesystemLog.fileEntry
  rw [h.files]

theorem discarded : l.Discarded r ↔ l'.Discarded r := by
  rw [Discarded, Discarded, h.lastRevision, h.records]

theorem cache (c c' : RecordCache) : SameFiles { l with cache := c } { l' with cache := c' } :=
  ⟨h.closed, h.active, h.lastRevision, h.rotateBytes⟩

theorem rotate : SameFiles l.rotate l'.rotate := by
  unfold FilesystemLog.rotate
  rw [h.active, h.closed, h.lastRevision]
  split
  · exact h
  · exact ⟨rfl, rfl, rfl, h.rotateBytes⟩

theorem published (batch : List LogRecord) :
    SameFiles (l.published batch) (l'.published batch) := by
  refine ⟨h.closed, ?_, ?_, h.rotateBytes⟩
  · simp only [FilesystemLog.published, h.active, h.lastRevision]
  · simp only [FilesystemLog.published, h.lastRevision]

theorem commit (position : Nat) (batch : List LogRecord) :
    SameFiles (l.commit position batch) (l'.commit position batch) := by
  have hpublished := h.published batch
  rw [commit_eq, commit_eq, h.lastRevision, h.rotateBytes, hpublished.active]
  split
  · exact h
  · split
    · exact hpublished.rotate
    · exact hpublished

theorem compactGroup (group : List LogFile) (kept : List (Nat × LogRecord)) :
    SameFiles (l.compactGroup group kept) (l'.compactGroup group kept) :=
  ⟨congrArg (replaceGroup · group _) h.closed, h.active, h.lastRevision, h.rotateBytes⟩

theorem start (through : Nat) : Compaction.start l through = Compaction.start l' through := by
  unfold Compaction.start eligible
  rw [h.closed]

/-- A compaction takes the same step over both. -/
theorem step (live : LiveFunc) (job : Compaction) :
    SameFiles (job.step l live).1 (job.step l' live).1 ∧ (job.step l live).2 = (job.step l' live).2 := by
  cases job with
  | measuring scan file todo measured =>
    unfold Compaction.step
    dsimp only
    cases scan.todo with
    | cons p ps => exact ⟨h, rfl⟩
    | nil =>
      cases todo with
      | cons next todo => exact ⟨h, rfl⟩
      | nil => exact ⟨h, by rw [h.rotateBytes]⟩
  | rewriting scan group todo =>
    unfold Compaction.step
    dsimp only
    cases scan.todo with
    | cons p ps => exact ⟨h, rfl⟩
    | nil => exact ⟨h.compactGroup group scan.kept, rfl⟩

end

end SameFiles

end FilesystemLog

open FilesystemLog

/-! ## The log in use -/

/-- A call of `GetLogEntry`; of a file that is out of the index nothing is known. -/
abbrev EntryCall := Reading Unit LogError

namespace EntryCall

/-- `findFile`. -/
def find (l : FilesystemLog) : EntryCall → EntryCall :=
  Reading.find fun r => (l.findFile r).elim (.error (.notFound r)) fun _ => .ok (decide (l.active.first ≤ r))

/-- The read of the file.  A file that is out of the index is opened again by its name, or not found any more:
`stale` is what comes of it.  A record is cached unless it is read from a mapping; a closed file is mapped
where that is possible, and one that was the active one perhaps by now. -/
def read (mmap mapped : Bool) (stale : Except LogError LogRecord) (l : FilesystemLog) : EntryCall → EntryCall :=
  Reading.read (fun r retired => retired.elim (l.fileEntry r) fun _ => stale)
    fun _ active _ => !(mmap && (mapped || !active))

/-- The files are out of the index. -/
def retire (group : List LogFile) : EntryCall → EntryCall :=
  Reading.retire fun r => (group.find? fun f => f.first ≤ r ∧ r ≤ f.last).map fun _ => ()

/-- The revision of a call that has found its file and not returned. -/
def pending : EntryCall → Option Nat
  | .found r _ _ => some r
  | .holding r _ => some r
  | _ => none

/-- The call holds a record that the files have, if any. -/
def Sound (l : FilesystemLog) : EntryCall → Prop := Reading.Sound (fun r x => (r, x) ∈ l.records) fun _ _ => True

end EntryCall

/-- A log that is in use, with the compaction that runs over it and the calls of `GetLogEntry`. -/
structure ServedLog where
  log : FilesystemLog
  running : Option (Nat × Compaction)
  reads : List EntryCall

namespace ServedLog

/-- What happens to it.  Each step of a compaction asks a `live` function that may have changed. -/
inductive Action where
  | commit (position : Nat) (batch : List LogRecord)
  | tick
  | get (revision : Nat)
  | find (n : Nat)
  | read (n : Nat) (mapped : Bool) (stale : Except LogError LogRecord)
  | put (n : Nat)
  | compact (through : Nat)
  | compactStep (live : LiveFunc)

/-- The files that the next step of a compaction replaces. -/
def replaced : Compaction → List LogFile
  | .rewriting scan group _ => if scan.todo = [] then group else []
  | .measuring _ _ _ _ => []

/-- One step.  `Compact` waits for the one before it. -/
def step (mmap : Bool) (s : ServedLog) : Action → Option ServedLog
  | .commit position batch => some { s with log := s.log.commit position batch }
  | .tick => some { s with log := s.log.rotate }
  | .get revision =>
    some { s with
      log := { s.log with cache := (s.log.cache.get revision).1 }
      reads := s.reads ++ [Reading.look s.log.cache revision] }
  | .find n => some { s with reads := s.reads.modify n (EntryCall.find s.log) }
  | .read n mapped stale =>
    some { s with reads := s.reads.modify n (EntryCall.read mmap mapped stale s.log) }
  | .put n =>
    some { s with
      log := { s.log with cache := s.reads[n]?.elim s.log.cache (Reading.cache s.log.cache) }
      reads := s.reads.modify n Reading.put }
  | .compact through =>
    match s.running with
    | some _ => none
    | none => some { s with running := (Compaction.start s.log through).map fun job => (through, job) }
  | .compactStep live =>
    match s.running with
    | none => none
    | some (through, job) =>
      some {
        log := (job.step s.log live).1
        running := (job.step s.log live).2.map fun job => (through, job)
        reads := s.reads.map (EntryCall.retire (replaced job)) }

/-- The step is not the swap of a group that drops a revision which the cache holds, or that has a file which
a call is about. -/
def DropsUnused (s : ServedLog) : Action → Prop
  | .compactStep _ =>
    match s.running with
    | some (_, .rewriting scan group _) => scan.todo = [] →
      (∀ p ∈ group.flatMap LogFile.records, p ∉ scan.kept → ∀ it ∈ s.log.cache.ll, it.revision ≠ p.1) ∧
      ∀ x ∈ s.reads, ∀ r ∈ EntryCall.pending x, ∀ f ∈ group, ¬ (f.first ≤ r ∧ r ≤ f.last)
    | _ => True
  | _ => True

instance DropsUnused.decidable (s : ServedLog) : ∀ a, Decidable (s.DropsUnused a)
  | .compactStep _ =>
    match hrunning : s.running with
    | some (_, .rewriting scan group _) =>
      decidable_of_iff (scan.todo = [] → (∀ p ∈ group.flatMap LogFile.records, p ∉ scan.kept →
        ∀ it ∈ s.log.cache.ll, it.revision ≠ p.1) ∧
        ∀ x ∈ s.reads, ∀ r ∈ EntryCall.pending x, ∀ f ∈ group, ¬ (f.first ≤ r ∧ r ≤ f.last))
        (by simp only [DropsUnused, hrunning])
    | some (_, .measuring _ _ _ _) => isTrue (by simp only [DropsUnused, hrunning])
    | none => isTrue (by simp only [DropsUnused, hrunning])
  | .commit _ _ | .tick | .get _ | .find _ | .read _ _ _ | .put _ | .compact _ => isTrue trivial

/-- The files are in order, those of a running compaction are in their place, and the cache and the calls are
about records that the files have. -/
structure Inv (s : ServedLog) : Prop where
  wf : s.log.WF
  placed : ∀ through job, s.running = some (through, job) → Placed s.log.closed through job
  cache : s.log.CacheIn s.log.records
  reads : ∀ x ∈ s.reads, EntryCall.Sound s.log x

variable {mmap : Bool} {s s' t t' : ServedLog} {a : Action}

theorem Inv.grows (h : s.Inv) {log : FilesystemLog} (hgrows : Grows s.log log) :
    Inv { s with log := log } := by
  obtain ⟨fs, hfs⟩ := hgrows.closed
  refine ⟨hgrows.wf, fun through job hjob => ?_, hgrows.cache h.cache, fun x hx => ?_⟩
  · show Placed log.closed through job
    rw [hfs]
    exact (h.placed through job hjob).later fs
  · exact (h.reads x hx).mono (fun r record _ hr => hgrows.records _ hr) fun _ _ => id

theorem Inv.withCache (h : s.Inv) {cache : RecordCache}
    (hcache : ∀ it ∈ cache.ll, it ∈ s.log.cache.ll ∨ (it.revision, it.record) ∈ s.log.records) :
    Inv { s with log := { s.log with cache := cache } } :=
  ⟨⟨h.wf.closed, h.wf.active, h.wf.dense, h.wf.last⟩, h.placed,
    fun it hit => (hcache it hit).elim (h.cache it) id, h.reads⟩

/-- The swap of a group that meets the condition keeps the records in the cache and those that calls hold. -/
theorem Inv.swap (h : s.Inv) {through : Nat} {scan : Scan} {before group rest : List LogFile} {todo : List Group}
    (hswap : SwapsGroup s.log through (.rewriting scan group todo) scan before group rest)
    (hdrops : ∀ p ∈ group.flatMap LogFile.records, p ∉ scan.kept → ∀ it ∈ s.log.cache.ll, it.revision ≠ p.1)
    (hcalls : ∀ x ∈ s.reads, ∀ r ∈ EntryCall.pending x, ∀ f ∈ group, ¬ (f.first ≤ r ∧ r ≤ f.last)) :
    (s.log.compactGroup group scan.kept).CacheIn (s.log.compactGroup group scan.kept).records ∧
    ∀ x ∈ s.reads, EntryCall.Sound (s.log.compactGroup group scan.kept) (EntryCall.retire group x) := by
  have hmem := fun r => (mem_records_compactGroup h.wf hswap.closed hswap.nonempty hswap.kept (r := r)).2
  refine ⟨fun it hit => ?_, fun x hx => Reading.Sound.retire ?_ fun r hr => ?_⟩
  · rcases hmem _ (h.cache it hit) with hin | ⟨hgroup, hnot⟩
    · exact hin
    · exact absurd rfl (hdrops _ hgroup hnot it hit)
  · refine (h.reads x hx).mono (fun r record hholds hin => ?_) fun _ _ => id
    rcases hmem _ hin with hin | ⟨hgroup, -⟩
    · exact hin
    · -- A record of the group is in the range of one of its files.
      obtain ⟨f, hf, hrec⟩ := List.mem_flatMap.mp hgroup
      have hfile : f ∈ s.log.files := by
        rw [FilesystemLog.files, hswap.closed]
        simp [hf]
      exact absurd ((h.wf.file_wf hfile).bounds _ hrec) (hcalls x hx r (by rw [hholds]; rfl) f hf)
  · have hpending : r ∈ EntryCall.pending x := by
      cases x with
      | found _ _ _ => exact hr
      | missed _ | holding _ _ | done _ _ => cases hr
    rw [List.find?_eq_none.mpr fun f hf hin => hcalls x hx r hpending f hf (of_decide_eq_true hin)]
    rfl

/-- A step of a running compaction: the log stays, or a group is swapped. -/
theorem Inv.compactStep (h : s.Inv) {live : LiveFunc} (hdrops : s.DropsUnused (.compactStep live))
    (hstep : s.step mmap (.compactStep live) = some s') :
    s'.Inv := by
  obtain ⟨log, running, reads⟩ := s
  cases running with
  | none => cases hstep
  | some running =>
    obtain ⟨through, job⟩ := running
    cases hstep
    have hplaced : Placed log.closed through job := h.placed through job rfl
    have hnext : ∀ through' job', ((job.step log live).2.map fun job => (through, job)) =
        some (through', job') → Placed (job.step log live).1.closed through' job' := by
      intro through' job' hjob
      obtain ⟨job'', hstep, hpair⟩ := Option.map_eq_some_iff.mp hjob
      cases hpair
      exact (hplaced.step h.wf live).2 _ hstep
    suffices hlog : (job.step log live).1.WF ∧ (job.step log live).1.CacheIn (job.step log live).1.records ∧
        ∀ x ∈ reads, EntryCall.Sound (job.step log live).1 (EntryCall.retire (replaced job) x) by
      refine ⟨hlog.1, hnext, hlog.2.1, fun x hx => ?_⟩
      obtain ⟨y, hy, rfl⟩ := List.mem_map.mp hx
      exact hlog.2.2 y hy
    by_cases hdone : ∃ scan group todo, job = .rewriting scan group todo ∧ scan.todo = []
    · obtain ⟨scan, group, todo, rfl, hdone⟩ := hdone
      obtain ⟨before, rest, hswap⟩ := hplaced.swaps hdone
      have heq : (Compaction.step log live (.rewriting scan group todo)).1 =
          log.compactGroup group scan.kept := by simp [Compaction.step, hdone]
      obtain ⟨hdropped, hcalls⟩ := hdrops hdone
      rw [heq, replaced, if_pos hdone]
      exact ⟨(compactGroup_spec h.wf hswap.closed hswap.nonempty hswap.kept).2,
        h.swap hswap hdropped hcalls⟩
    · have hnone : replaced job = [] := by
        cases job with
        | measuring scan file todo measured => rfl
        | rewriting scan group todo => exact if_neg fun hnil => hdone ⟨scan, group, todo, rfl, hnil⟩
      rw [step_scanning (fun scan group todo hjob hnil => hdone ⟨scan, group, todo, hjob, hnil⟩) live, hnone]
      exact ⟨h.wf, h.cache, fun x hx => (h.reads x hx).retire fun _ _ => rfl⟩

/-- A step that meets the condition keeps the invariant. -/
theorem Inv.step (h : s.Inv) (hdrops : s.DropsUnused a) (hstep : s.step mmap a = some s') : s'.Inv := by
  cases a with
  | commit position batch =>
    cases hstep
    exact h.grows (grows_commit h.wf position batch)
  | tick =>
    cases hstep
    exact h.grows (grows_rotate h.wf)
  | get revision =>
    cases hstep
    have hcache := h.withCache fun it hit => Or.inl ((s.log.cache.get_spec revision).1 it hit)
    refine ⟨hcache.wf, hcache.placed, hcache.cache, fun x hx => ?_⟩
    rcases List.mem_append.mp hx with hx | hx
    · exact h.reads x hx
    · rw [List.mem_singleton.mp hx]
      exact Reading.Sound.look fun _ _ => trivial
  | find n =>
    cases hstep
    exact ⟨h.wf, h.placed, h.cache, Reading.sound_modify h.reads n fun x hx => hx.find _⟩
  | read n mapped stale =>
    cases hstep
    exact ⟨h.wf, h.placed, h.cache, Reading.sound_modify h.reads n fun x hx =>
      hx.read (fun _ _ _ => trivial) (fun _ _ hread => (fileEntry_eq_ok h.wf).mp hread) _⟩
  | put n =>
    cases hstep
    have hcache := h.withCache fun it hit => Reading.mem_cache (n := n) h.reads hit
    exact ⟨hcache.wf, hcache.placed, hcache.cache, Reading.sound_modify h.reads n fun x hx =>
      hx.put fun _ _ _ => trivial⟩
  | compact through =>
    simp only [ServedLog.step] at hstep
    split at hstep
    · cases hstep
    · cases hstep
      refine ⟨h.wf, fun through' job hjob => ?_, h.cache, h.reads⟩
      obtain ⟨job', hstart, hpair⟩ := Option.map_eq_some_iff.mp hjob
      cases hpair
      exact Placed.start h.wf hstart
  | compactStep live => exact h.compactStep hdrops hstep

/-- The two logs have the same files and the same compaction. -/
structure Alike (s t : ServedLog) : Prop where
  files : SameFiles s.log t.log
  running : s.running = t.running

theorem Alike.step (h : Alike s t) (hs : s.step mmap a = some s') (ht : t.step mmap a = some t') :
    Alike s' t' := by
  cases a with
  | commit position batch =>
    cases hs
    cases ht
    exact ⟨h.files.commit position batch, h.running⟩
  | tick =>
    cases hs
    cases ht
    exact ⟨h.files.rotate, h.running⟩
  | get _ | put _ =>
    cases hs
    cases ht
    exact ⟨h.files.cache _ _, h.running⟩
  | find _ | read _ _ _ =>
    cases hs
    cases ht
    exact ⟨h.files, h.running⟩
  | compact through =>
    simp only [ServedLog.step] at hs ht
    rw [← h.running] at ht
    cases hrunning : s.running with
    | some running =>
      rw [hrunning] at hs
      cases hs
    | none =>
      rw [hrunning] at hs ht
      cases hs
      cases ht
      exact ⟨h.files, congrArg (Option.map _) (h.files.start through)⟩
  | compactStep live =>
    simp only [ServedLog.step] at hs ht
    rw [← h.running] at ht
    cases hrunning : s.running with
    | none =>
      rw [hrunning] at hs
      cases hs
    | some running =>
      rw [hrunning] at hs ht
      cases hs
      cases ht
      obtain ⟨hfiles, hjob⟩ := h.files.step live running.2
      exact ⟨hfiles, congrArg (Option.map _) hjob⟩

end ServedLog

/-! ## Two budgets -/

/-- The same log under two cache budgets. -/
structure TwinLogs where
  left : ServedLog
  right : ServedLog

namespace TwinLogs

open ServedLog Transition

/-- The log opened with a cache budget: nothing is cached yet. -/
def opened (l : FilesystemLog) (cacheBytes : Int) : ServedLog where
  log := { l with opts := { l.opts with cacheBytes := cacheBytes }, cache := RecordCache.new cacheBytes }
  running := none
  reads := []

/-- Opened twice. -/
def start (l : FilesystemLog) (budget budget' : Int) : TwinLogs := ⟨opened l budget, opened l budget'⟩

/-- Both take the step.  A call that one cache has answered does nothing while the other goes on. -/
def step (mmap : Bool) (t : TwinLogs) (a : Action) : Option TwinLogs :=
  match t.left.step mmap a, t.right.step mmap a with
  | some left, some right => some ⟨left, right⟩
  | _, _ => none

/-- A call that nothing interleaves with answers alike in both, and refuses a revision that was discarded. -/
structure AnswerAlike (t : TwinLogs) : Prop where
  alike : ∀ r, t.left.log.read r = t.right.log.read r
  refused : ∀ r, t.left.log.Discarded r ∨ t.right.log.Discarded r →
    t.left.log.read r = .error (.compacted r) ∧ t.right.log.read r = .error (.compacted r)

/-- Neither cache holds a revision that the step drops, and no call is about a file that it replaces. -/
def DropsUnused (t : TwinLogs) (a : Action) : Prop :=
  t.left.DropsUnused a ∧ t.right.DropsUnused a

instance DropsUnused.decidable (t : TwinLogs) (a : Action) : Decidable (t.DropsUnused a) :=
  inferInstanceAs (Decidable (t.left.DropsUnused a ∧ t.right.DropsUnused a))

structure Inv (t : TwinLogs) : Prop where
  left : t.left.Inv
  right : t.right.Inv
  alike : Alike t.left t.right

variable {mmap : Bool} {t t' : TwinLogs} {a : Action}

theorem Inv.step (h : t.Inv) (hdrops : t.DropsUnused a) (hstep : t.step mmap a = some t') : t'.Inv := by
  unfold TwinLogs.step at hstep
  split at hstep
  · next left right hleft hright =>
    cases hstep
    exact ⟨h.left.step hdrops.1 hleft, h.right.step hdrops.2 hright,
      h.alike.step hleft hright⟩
  · cases hstep

theorem inv_start {l : FilesystemLog} (hl : l.WF) (budget budget' : Int) : (start l budget budget').Inv := by
  have hopened : ∀ budget, (opened l budget).Inv := fun _ =>
    ⟨⟨hl.closed, hl.active, hl.dense, hl.last⟩, nofun, nofun, nofun⟩
  exact ⟨hopened budget, hopened budget', ⟨rfl, rfl, rfl, rfl⟩, rfl⟩

theorem Inv.answerAlike (h : t.Inv) : t.AnswerAlike := by
  have hfiles := h.alike.files
  have hl := read_eq_fileEntry h.left.wf h.left.cache
  have hr := read_eq_fileEntry h.right.wf h.right.cache
  refine ⟨fun r => by rw [hl, hr, hfiles.fileEntry], fun r hdiscarded => ?_⟩
  have hboth : t.left.log.Discarded r := hdiscarded.elim id hfiles.discarded.mpr
  rw [hl, hr, ← hfiles.fileEntry, fileEntry_discarded h.left.wf hboth]
  exact ⟨rfl, rfl⟩

/-- Two logs with the same options but for the cache answer alike, and refuse what was discarded, in every
state of a run in which no compaction drops a revision that one of the caches holds, or replaces a file that a
call has found. -/
theorem answers_ignore_budget (mmap : Bool) {l : FilesystemLog} (hl : l.WF) (budget budget' : Int)
    {as : List Action} (heach : Each (step mmap) DropsUnused (start l budget budget') as) :
    Always (step mmap) AnswerAlike (start l budget budget') as := by
  intro before t hpre ht
  have hinv : t.Inv := run_invariant_each (K := Inv) (fun _ _ _ hs hdrops hstep => hs.step hdrops hstep) ht
    (heach.mono hpre) (inv_start hl budget budget')
  exact hinv.answerAlike

/-- A log without records. -/
def noRecords : FilesystemLog := ⟨⟨0, 2 ^ 26⟩, [], newActiveFile 0, 0, RecordCache.new 0⟩

theorem wf_noRecords : noRecords.WF := ⟨rfl, wf_newActiveFile 0, rfl, rfl⟩

/-- A key is put twice, into two files; the first put is read while it is in the active file; and a compaction
merges the files without it. -/
def putTwiceAndCompact : List Action :=
  let put : LogRecord := ⟨[{ type := .put, kv := { key := [97] } }]⟩
  [.commit 0 [put], .get 1, .find 0, .read 0 false (.ok put), .put 0, .tick, .commit 1 [put], .tick,
    .compact 2] ++ List.replicate 9 (.compactStep fun _ revision => decide (revision = 2))

/-- Two caches that are too small for a record: both refuse the first put. -/
theorem answers_ignore_budget_small : ∃ t,
    run (step true) (start noRecords 1 2) putTwiceAndCompact = some t ∧
    Always (step true) AnswerAlike (start noRecords 1 2) putTwiceAndCompact ∧
    t.left.log.read 1 = .error (.compacted 1) := by
  obtain ⟨t, ht, hread⟩ : ∃ t, run (step true) (start noRecords 1 2) putTwiceAndCompact = some t ∧
      t.left.log.read 1 = .error (.compacted 1) := by decide +kernel
  exact ⟨t, ht, answers_ignore_budget true wf_noRecords 1 2 (by decide +kernel), hread⟩

/-- Under the default budget the first put is still in the cache: it is served after the compaction that
discarded it, and refused where the cache is too small for it. -/
theorem answers_depend_on_budget : ∃ t,
    run (step true) (start noRecords (256 * 2 ^ 20) 1) putTwiceAndCompact = some t ∧
    ¬ t.AnswerAlike ∧ t.left.log.Discarded 1 ∧
    t.left.log.read 1 = .ok ⟨[{ type := .put, kv := { key := [97] } }]⟩ ∧
    t.right.log.read 1 = .error (.compacted 1) := by
  obtain ⟨t, ht, hlast, hrecords, hleft, hright⟩ :
      ∃ t, run (step true) (start noRecords (256 * 2 ^ 20) 1) putTwiceAndCompact = some t ∧
        t.left.log.lastRevision = 2 ∧ t.left.log.records.map Prod.fst = [2] ∧
        t.left.log.read 1 = .ok ⟨[{ type := .put, kv := { key := [97] } }]⟩ ∧
        t.right.log.read 1 = .error (.compacted 1) := by
    decide +kernel
  refine ⟨t, ht, fun halike => ?_, ⟨le_rfl, by omega, fun x hx => ?_⟩, hleft, hright⟩
  · have := halike.alike 1
    rw [hleft, hright] at this
    cases this
  · have hmem : 1 ∈ t.left.log.records.map Prod.fst := List.mem_map_of_mem (f := Prod.fst) hx
    rw [hrecords] at hmem
    simp at hmem

end TwinLogs

end CloudEtcd
