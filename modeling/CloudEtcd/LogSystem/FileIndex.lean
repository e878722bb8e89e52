/-
# CloudEtcd.LogSystem.FileIndex — the index of the files, in every state of every run.

The index is a row of ranges that starts at 1 and ends with the active file at the last revision
(`DiskLog.Tiles`), whatever commits, rotations, compactions, closes, crashes and reopenings came
before, and also in the middle of a compaction (`file_index_tiles`).  A clean close and reopening
finds the same row again.  `Compact` keeps every live record with its bytes (`compact_keeps_live`).
-/
import CloudEtcd.LogSystem.Lossless
import CloudEtcd.Persistence.PointReads

namespace CloudEtcd

open LogCodec IndexFile FilesystemLog

/-! ## The row of ranges -/

/-- The index covers the revisions up to the last one without gaps or overlaps. -/
structure DiskLog.Tiles (d : DiskLog) : Prop where
  start : ∀ f ∈ d.files.head?, f.first = 1
  next : d.files.IsChain fun f g => g.first = f.last + 1
  active : d.active.sparse = false
  last : d.active.last = d.lastRevision
  dense : ∀ f ∈ d.files, f.sparse = false →
    f.last + 1 = f.first + f.count ∧ (f.indexed = true → f.spans.length = f.count)
  sparse : ∀ f ∈ d.files, f.sparse = true → f.indexed = true →
    f.revisions.Pairwise (· < ·) ∧ (∀ r ∈ f.revisions, f.first ≤ r ∧ r ≤ f.last) ∧
      f.revisions.length = f.count ∧ f.spans.length = f.count

variable {l : FilesystemLog}

theorem FilesystemLog.WF.next_first (h : l.WF) :
    l.files.IsChain fun f g => g.first = f.last + 1 := by
  have hrow : ∀ {fs : List LogFile} {want : Nat}, Tiled want fs l.active.first →
      (fs ++ [l.active]).IsChain fun f g => g.first = f.last + 1 := by
    intro fs
    induction fs with
    | nil => exact fun _ => List.isChain_singleton _
    | cons f fs ih =>
      intro want hrow
      obtain ⟨-, -, -, hrest⟩ := hrow
      cases fs with
      | nil => exact List.isChain_cons_cons.mpr ⟨hrest.symm, ih hrest⟩
      | cons g fs => exact List.isChain_cons_cons.mpr ⟨hrest.1, ih hrest⟩
  exact hrow h.closed

variable {d : DiskLog}

/-- What a log's files say, its index says. -/
theorem Indexes.tiles (h : Indexes d l) (hwf : l.WF) : d.Tiles where
  start := by
    intro f hf
    have hhead := forall₂_head h.files
    rw [hf] at hhead
    have hfirst : l.files.head?.map LogFile.first = some 1 := by
      have hclosed := hwf.closed
      rw [FilesystemLog.files]
      cases hl : l.closed with
      | nil =>
        rw [hl] at hclosed
        change 1 = l.active.first at hclosed
        simp [← hclosed]
      | cons g gs =>
        rw [hl] at hclosed
        simp [hclosed.1]
    rw [hfirst] at hhead
    exact Option.some.inj hhead
  next := by
    have hchain : ∀ {fs : List IndexFile} {gs : List LogFile}, List.Forall₂ Describes fs gs →
        gs.IsChain (fun f g => g.first = f.last + 1) →
        fs.IsChain fun f g => g.first = f.last + 1 := by
      intro fs gs hfs
      induction hfs with
      | nil => exact fun _ => List.isChain_nil
      | cons hfg hrest ih =>
        intro hchain
        cases hrest with
        | nil => exact List.isChain_singleton _
        | cons hfg' _ =>
          obtain ⟨hhead, htail⟩ := List.isChain_cons_cons.mp hchain
          refine List.isChain_cons_cons.mpr ⟨?_, ih htail⟩
          rw [hfg'.first, hfg.last]
          exact hhead
    exact hchain h.files hwf.next_first
  active := h.active.sparse.trans hwf.dense
  last := by rw [h.active.last, hwf.last, h.lastRevision]
  dense := by
    intro f hf hs
    obtain ⟨g, hg, hdesc⟩ := h.describes_mem hf
    have hend : g.last + 1 = g.first + g.records.length :=
      ((hwf.file_wf hg).dense (hdesc.sparse ▸ hs)).2
    refine ⟨?_, fun hi => ?_⟩
    · rw [hdesc.last, hdesc.first, hdesc.count]
      exact hend
    · rw [(hdesc.spans hi).1, hdesc.count, length_spansFrom]
  sparse := by
    intro f hf hs hi
    obtain ⟨g, hg, hdesc⟩ := h.describes_mem hf
    obtain ⟨hspans, hrevisions⟩ := hdesc.spans hi
    have hgwf := hwf.file_wf hg
    rw [hrevisions (hdesc.sparse ▸ hs), hspans, hdesc.count, hdesc.first, hdesc.last]
    refine ⟨List.pairwise_map.mpr hgwf.ascending, fun r hr => ?_, by simp, by simp⟩
    obtain ⟨x, hx, rfl⟩ := List.mem_map.mp hr
    exact hgwf.bounds x hx

/-- The directory has a file for each entry, with as many records and bytes as the entry says, and with
revisions in order that lie in its range. -/
def DiskLog.Stored (d : DiskLog) : Prop :=
  ∀ f ∈ d.files, ∃ data s, d.dir.lookup f.name = some data ∧ scan data = .ok s ∧
    s.spans.length = f.count ∧ s.complete = f.size ∧ data.length = f.size ∧
    (f.sparse = false → s.revisions = List.range' f.first f.count) ∧
    s.revisions.Pairwise (· < ·) ∧ ∀ r ∈ s.revisions, f.first ≤ r ∧ r ≤ f.last

theorem Refines.stored (h : Refines d l) : d.Stored := by
  intro f hf
  obtain ⟨g, hg, hdesc⟩ := h.index.describes_mem hf
  have hwf := h.wf.file_wf hg
  have hscan := scan_encodeFile hdesc.storable tornTail_nil
  rw [List.append_nil] at hscan
  refine ⟨_, _, hdesc.name ▸ h.dir.holds g hg, hscan, ?_, hdesc.size.symm, hdesc.size.symm,
    fun hs => ?_, List.pairwise_map.mpr hwf.ascending, fun r hr => ?_⟩
  · rw [length_spansFrom, hdesc.count]
  · rw [hdesc.first, hdesc.count]
    exact (hwf.dense (hdesc.sparse ▸ hs)).1
  · obtain ⟨x, hx, rfl⟩ := List.mem_map.mp hr
    rw [hdesc.first, hdesc.last]
    exact hwf.bounds x hx

/-! ## Closing and opening again -/

/-- Range, kind, number of records and size of a file. -/
def IndexFile.summary (f : IndexFile) : Nat × Nat × Bool × Nat × Nat :=
  (f.first, f.last, f.sparse, f.count, f.size)

/-- Two logs whose entries describe the same files. -/
theorem summary_eq {fs fs' : List IndexFile} {gs : List LogFile} (h : List.Forall₂ Describes fs gs)
    (h' : List.Forall₂ Describes fs' gs) : fs.map summary = fs'.map summary := by
  induction h generalizing fs' with
  | nil =>
    cases h'
    rfl
  | cons hfg _ ih =>
    cases h' with
    | cons hfg' hrest' =>
      rw [List.map_cons, List.map_cons, ih hrest']
      congr 1
      simp only [summary, hfg.first, hfg.last, hfg.sparse, hfg.count, hfg.size,
        hfg'.first, hfg'.last, hfg'.sparse, hfg'.count, hfg'.size]

namespace LogSystem

/-- A process that compacts nothing has the log `l` open. -/
structure Idle (l : FilesystemLog) (s : LogSystem) (p : Process) : Prop where
  up : s.status = .up p
  job : p.job = none
  running : Running p l l
  safe : Safe s.archive p.pending l
  archiving : p.log.archiving = s.archiving

variable {s : LogSystem}

theorem Sound.idle (h : s.Sound) {p : Process} (hup : s.status = .up p)
    (hjob : p.job = none) : ∃ l, Idle l s p := by
  obtain ⟨l, b, hrunning, hsafe, harch⟩ := h.up hup
  have hok := hrunning.job
  rw [hjob] at hok
  cases hok
  exact ⟨l, hup, hjob, hrunning, hsafe, harch⟩

namespace Idle

variable {l : FilesystemLog} {s s' t : LogSystem} {p : Process}

theorem refines (h : Idle l s p) : Refines p.log l := by
  have hok := h.running.job
  rw [h.job] at hok
  cases hok with
  | idle hdir => exact ⟨h.running.index, h.running.wf, hdir⟩

/-- The archiver leaves the log alone. -/
theorem archiver (h : Idle l s p) {a : Action} (ha : Archiver a) (hstep : s.step a = some s') :
    (∃ p', Idle l s' p') ∨ ∃ dir, s'.status = .down dir := by
  unfold step at hstep
  rw [h.up] at hstep
  rcases ha with rfl | rfl
  · change s.moved p.take = some s' at hstep
    obtain ⟨p', htake, rfl⟩ := Option.map_eq_some_iff.mp hstep
    unfold Process.take at htake
    split at htake
    · next op queue hcurrent hqueue =>
      cases htake
      have hpending : Process.pending { p with
          log := { p.log with queue := queue }, current := some op } = p.pending := by
        simp [Process.pending, hcurrent, hqueue]
      refine Or.inl ⟨_, rfl, h.job, ⟨⟨h.running.index.opts, h.running.index.closed,
        h.running.index.active, h.running.index.indexed, h.running.index.lastRevision⟩,
        h.running.wf, h.running.job⟩, ?_, h.archiving⟩
      rw [hpending]
      exact h.safe
    · cases htake
  · rcases carryOut_running h.up h.running h.safe hstep with
      ⟨p', hs', hrunning, hsafe, harch, -, hjob⟩ | rfl
    · refine Or.inl ⟨p', ?_, hjob.trans h.job, hrunning, hsafe, ?_⟩
      · rw [hs']
      · rw [hs']
        exact harch.trans h.archiving
    · exact Or.inr ⟨_, rfl⟩

/-- `Close` rotates or does nothing. -/
theorem close (h : Idle l s p) (hstep : s.step .close = some s') : ∃ l' p', Idle l' s' p' ∧
    (l' = l ∨ l.active.records ≠ [] ∧ l' = l.rotate) := by
  unfold step at hstep
  rw [h.up] at hstep
  change s.moved p.close = some s' at hstep
  obtain ⟨p', hclose, rfl⟩ := Option.map_eq_some_iff.mp hstep
  unfold Process.close at hclose
  split at hclose
  · cases hclose
  · split at hclose
    · cases hclose
    · cases hclose
      have hsame : ∀ log, log = p.log → Idle l
          { s with status := .up { p with log := log, closing := true } }
          { p with log := log, closing := true } := by
        rintro log rfl
        exact ⟨rfl, h.job, ⟨h.running.index, h.running.wf, h.running.job⟩, h.safe, h.archiving⟩
      unfold DiskLog.close
      split
      · by_cases hne : l.active.records = []
        · -- An empty active file stays.
          refine ⟨l, _, hsame _ ?_, Or.inl rfl⟩
          rw [DiskLog.rotate, if_pos]
          rw [h.running.index.active.count, hne]
          rfl
        · rcases h.running.rotate with ⟨hlog, hl, -⟩ | ⟨hrunning, heffect⟩
          · exact ⟨l, _, hsame _ hlog, Or.inl rfl⟩
          · have hsafe := h.safe.effect h.running heffect
            exact ⟨l.rotate, _, ⟨rfl, h.job, ⟨hrunning.index, hrunning.wf, hrunning.job⟩, hsafe,
              (DiskLog.rotate_archiving _).trans h.archiving⟩, Or.inr ⟨hne, rfl⟩⟩
      · exact ⟨l, _, hsame _ rfl, Or.inl rfl⟩

/-- The process ends after some steps of the archiver. -/
theorem exit {bs : List Action} : ∀ {s : LogSystem} {p : Process}, Idle l s p →
    (∀ b ∈ bs, Archiver b) → run s (bs ++ [.exit]) = some t →
    ∃ dir, t.status = .down dir ∧ Recovers dir l ∧ Safe t.archive [] l := by
  induction bs with
  | nil =>
    intro s p h _ hrun
    obtain ⟨u, hstep, hend⟩ := Transition.run_cons_eq_some.mp hrun
    cases hend
    unfold step at hstep
    rw [h.up] at hstep
    dsimp only at hstep
    split at hstep
    · cases hstep
      exact ⟨_, rfl, h.running.recovers, h.safe.archived, fun op hop => by cases hop⟩
    · cases hstep
  | cons b bs ih =>
    intro s p h hbs hrun
    obtain ⟨u, hstep, hrest⟩ := Transition.run_cons_eq_some.mp hrun
    have hbs' : ∀ x ∈ bs, Archiver x := fun x hx => hbs x (List.mem_cons_of_mem _ hx)
    rcases h.archiver (hbs b List.mem_cons_self) hstep with ⟨p', h'⟩ | ⟨dir, hdown⟩
    · exact ih h' hbs' hrest
    · -- No action of the archiver and no exit is left.
      exfalso
      have hnone : ∀ x ∈ bs ++ [.exit], u.step x = none := by
        intro x hx
        unfold step
        rw [hdown]
        rcases List.mem_append.mp hx with hx | hx
        · rcases hbs' x hx with rfl | rfl <;> rfl
        · rw [List.mem_singleton.mp hx]
      cases hxs : bs ++ [.exit] with
      | nil => simp at hxs
      | cons x xs =>
        change run u (bs ++ [.exit]) = some t at hrest
        rw [hxs] at hrest
        obtain ⟨v, hv, -⟩ := Transition.run_cons_eq_some.mp hrest
        rw [hnone x (hxs ▸ List.mem_cons_self)] at hv
        cases hv

end Idle

/-! ## Every state of every run -/

/-- Opening the log again after a clean close finds the ranges, counts and sizes it had, or one more
file, which is empty. -/
def Reopens (s : LogSystem) (d : DiskLog) : Prop :=
  ∀ opts bs t, (∀ b ∈ bs, Archiver b) → run s (.close :: bs ++ [.exit]) = some t →
    ∃ log, t.step (.start opts) = some { t with status := .up { log := log } } ∧
      log.lastRevision = d.lastRevision ∧
      (log.files.map summary = d.files.map summary ∨
        log.files.map summary =
          (d.files ++ [DiskLog.freshFile d.lastRevision]).map summary)

theorem Idle.reopens {p : Process} (h : Idle l s p) : s.Reopens p.log := by
  intro opts bs t hbs hrun
  obtain ⟨u, hclose, hrest⟩ := Transition.run_cons_eq_some.mp hrun
  obtain ⟨l', p', h', hl'⟩ := h.close hclose
  obtain ⟨dir, hdown, hrec, hsafe⟩ := h'.exit hbs hrest
  obtain ⟨log, hopen, hrefines, -, -⟩ := opened hrec hsafe opts
  refine ⟨log, ?_, ?_, ?_⟩
  · unfold step
    rw [hdown]
    simp only [hopen]
  · rw [hrefines.index.lastRevision, h.running.index.lastRevision]
    rcases hl' with rfl | ⟨-, rfl⟩
    · rfl
    · exact (rotate_frame l).2.1
  · have hfiles := hrefines.index.files
    rcases hl' with rfl | ⟨hne, rfl⟩
    · exact Or.inl (summary_eq hfiles h.running.index.files)
    · right
      refine summary_eq hfiles ?_
      have hrotate : files { l.rotate with opts := opts.withDefaults } =
          l.files ++ [newActiveFile l.lastRevision] := by
        rw [rotate_eq hne]
        simp [files]
      rw [hrotate, h.running.index.lastRevision]
      exact List.rel_append h.running.index.files
        (List.Forall₂.cons (describes_freshFile l.lastRevision) .nil)

/-- In every state of every run in which the log is open, the index is a row of ranges up to the last
revision, and `findFile` finds the one file whose range has a revision, exactly for the revisions from 1
to the last.  While no compaction runs, the files are as the index says, and a clean close and reopening
finds the same row. -/
theorem file_index_tiles {archiving : Bool} {as : List Action} {s : LogSystem}
    (hrun : run (init archiving) as = some s) {p : Process} (hup : s.status = .up p) :
    p.log.Tiles ∧
    (∀ r f, p.log.findFile r = some f ↔ f ∈ p.log.files ∧ f.first ≤ r ∧ r ≤ f.last) ∧
    (∀ r, (∃! f, f ∈ p.log.files ∧ f.first ≤ r ∧ r ≤ f.last) ↔
      1 ≤ r ∧ r ≤ p.log.lastRevision) ∧
    (p.job = none → p.log.Stored ∧ s.Reopens p.log) := by
  have hsound := sound_run hrun
  obtain ⟨l, b, hrunning, -, -⟩ := hsound.up hup
  refine ⟨hrunning.index.tiles hrunning.wf, fun r f => hrunning.index.findFile_iff hrunning.wf,
    fun r => ?_, fun hjob => ?_⟩
  · rw [← hrunning.index.findFile_isSome hrunning.wf]
    constructor
    · rintro ⟨f, hf, -⟩
      exact ⟨f, (hrunning.index.findFile_iff hrunning.wf).mpr hf⟩
    · rintro ⟨f, hf⟩
      refine ⟨f, (hrunning.index.findFile_iff hrunning.wf).mp hf, fun g hg => ?_⟩
      have hg := (hrunning.index.findFile_iff hrunning.wf).mpr hg
      exact Option.some.inj (hg.symm.trans hf)
  · obtain ⟨l, hidle⟩ := hsound.idle hup hjob
    exact ⟨hidle.refines.stored, hidle.reopens⟩

/-- A process runs and compacts nothing. -/
def resting (s : LogSystem) : Bool :=
  match s.status with
  | .up p => p.job.isNone
  | .down _ => false

theorem resting_up (h : s.resting = true) : ∃ p, s.status = .up p ∧ p.job = none := by
  unfold resting at h
  split at h
  · next p hup => exact ⟨p, hup, Option.isNone_iff_eq_none.mp h⟩
  · cases h

/-- Two files and the file they are merged into. -/
theorem file_index_tiles_merged : ∃ s p, run (init true) mergedAndArchived = some s ∧
    s.status = .up p ∧ p.log.Tiles ∧ p.log.Stored ∧ s.Reopens p.log := by
  obtain ⟨s, hs, hrest⟩ : ∃ s, run (init true) mergedAndArchived = some s ∧ s.resting = true := by
    decide +kernel
  obtain ⟨p, hup, hjob⟩ := resting_up hrest
  obtain ⟨htiles, -, -, hidle⟩ := file_index_tiles hs hup
  exact ⟨s, p, hs, hup, htiles, hidle hjob⟩

end LogSystem

/-! ## `Compact` -/

/-- The record, decoded, has an event on a live key. -/
def HasLiveKey (live : FilesystemLog.LiveFunc) (r : Nat × Bytes) : Prop :=
  ∃ events, decodeAlias r.2 = .ok events ∧ ∃ ev ∈ events, ∃ kv ∈ ev.kv, live kv.key r.1 = true

theorem hasLiveKey_encoded {live : FilesystemLog.LiveFunc} {r : Nat × LogRecord} (hr : Storable r) :
    HasLiveKey live (r.1, encodeRecord r.1 r.2) ↔ isLive live r = true := by
  unfold HasLiveKey
  rw [decodeAlias_encodeRecord hr.2.2, isLive, List.any_eq_true]
  constructor
  · rintro ⟨events, heq, ev, hev, kv, hkv, hlive⟩
    cases heq
    obtain ⟨e, he, rfl⟩ := List.mem_map.mp hev
    cases hkv
    exact ⟨e, he, hlive⟩
  · rintro ⟨e, he, hlive⟩
    exact ⟨_, rfl, _, List.mem_map_of_mem he, _, rfl, hlive⟩

namespace FilesystemLog

/-- The records after a swap are some of those before it, in order. -/
theorem records_compactGroup_sublist (h : l.WF) {pre group post : List LogFile}
    (hclosed : l.closed = pre ++ group ++ post) (hne : group ≠ [])
    {kept : List (Nat × LogRecord)} (hsub : kept.Sublist (group.flatMap LogFile.records)) :
    (l.compactGroup group kept).records.Sublist l.records := by
  rw [records_eq, records_eq, (compactGroup_spec h hclosed hne hsub).1, hclosed]
  simp only [List.flatMap_append, List.flatMap_cons, List.append_assoc]
  refine List.Sublist.append (List.Sublist.refl _) (List.Sublist.append hsub ?_)
  exact List.Sublist.refl _

/-- The records after `Compact` are some of those before it, in order; what is gone is at or below the
point and not live. -/
theorem records_compact (h : l.WF) (through : Nat) (live : LiveFunc) :
    (l.compact through live).records.Sublist l.records ∧
      ∀ r ∈ l.records, r ∈ (l.compact through live).records ∨
        r.1 ≤ through ∧ isLive live r = false := by
  refine (compact_induction (P := fun l' => l'.records.Sublist l.records ∧
    ∀ r ∈ l.records, r ∈ l'.records ∨ r.1 ≤ through ∧ isLive live r = false) h
    ⟨List.Sublist.refl _, fun r hr => Or.inl hr⟩ ?_).2.2
  rintro l' pre post g hg hwf hne hclosed ⟨hsub, hgone⟩
  refine ⟨(records_compactGroup_sublist hwf hclosed hne List.filter_sublist).trans hsub,
    fun r hr => ?_⟩
  rcases hgone r hr with hr | hgone
  · rcases (mem_records_compactGroup hwf hclosed hne List.filter_sublist).2 hr with hin | ⟨hin, hout⟩
    · exact Or.inl hin
    · refine Or.inr ⟨?_, ?_⟩
      · obtain ⟨f, hf, hrf⟩ := List.mem_flatMap.mp hin
        obtain ⟨hfc, hle⟩ := files_of_compactionGroup hg hf
        exact (((h.closed.of_mem hfc).1.bounds r hrf).2).trans hle
      · by_contra hlive
        exact hout (List.mem_filter.mpr ⟨hin, by simpa using hlive⟩)
  · exact Or.inr hgone

end FilesystemLog

/-- What `Compact` leaves, as `Read`, `GetLogEntry` and the index show it. -/
structure DiskLog.Compacted (through : Nat) (live : FilesystemLog.LiveFunc) (d d' : DiskLog) :
    Prop where
  revision : d'.lastRevision = d.lastRevision
  /-- What `Read` yields: the records above the point and those with a live key stay, and nothing is
  added, changed or moved. -/
  read : ∀ fromRevision, ∃ before after, d.readFrom fromRevision = .ok before ∧
    d'.readFrom fromRevision = .ok after ∧ after.Sublist before ∧
    after.Pairwise (fun r r' => r.1 < r'.1) ∧
    (∀ r ∈ before, through < r.1 ∨ HasLiveKey live r → r ∈ after) ∧
    (∀ r ∈ before, r ∉ after → r.1 ≤ through ∧ ¬ HasLiveKey live r) ∧
    ∀ r ∈ after, d.recordBytes r.1 = .ok r.2 ∧ d'.recordBytes r.1 = .ok r.2
  /-- A file is an old one, or it is one that compaction wrote. -/
  files : ∀ f ∈ d'.closed, f ∈ d.closed ∨ f.sparse = true ∧ f.indexed = true
  /-- The index of such a file is what `Scan` finds in it. -/
  spans : ∀ f ∈ d'.closed, f.sparse = true → f.indexed = true → ∃ data,
    d'.dir.lookup f.name = some data ∧ scan data = .ok ⟨f.spans, f.revisions, data.length⟩

theorem mem_encoded {rs : List (Nat × LogRecord)} {r : Nat × Bytes} :
    r ∈ encoded rs ↔ ∃ x ∈ rs, (x.1, encodeRecord x.1 x.2) = r := List.mem_map

theorem Refines.compacted (h : Refines d l) (through : Nat) (live : FilesystemLog.LiveFunc) :
    ∃ d', d.compact through live = .ok d' ∧ DiskLog.Compacted through live d d' := by
  obtain ⟨d', hd', hrefines, hnew⟩ := h.compact through live
  obtain ⟨hsub, hgone⟩ := records_compact h.wf through live
  have hstorable : ∀ r ∈ l.records, Storable r := by
    intro r hr
    obtain ⟨g, hg, hrg⟩ := List.mem_flatMap.mp hr
    obtain ⟨f, -, hdesc⟩ := forall₂_mem h.index.files hg
    exact hdesc.storable r hrg
  refine ⟨d', hd', ?_, fun fromRevision => ?_, hnew, fun f hf hs hi => ?_⟩
  · rw [hrefines.index.lastRevision, h.index.lastRevision]
    exact (compact_frame h.wf through live).2.2.1
  · -- A record that is gone is not live.
    have hleft : ∀ r ∈ encoded (l.records.filter fun r => fromRevision ≤ r.1),
        r ∉ encoded ((l.compact through live).records.filter fun r => fromRevision ≤ r.1) →
          r.1 ≤ through ∧ ¬ HasLiveKey live r := by
      intro r hr hout
      obtain ⟨x, hx, rfl⟩ := mem_encoded.mp hr
      obtain ⟨hx, hfrom⟩ := List.mem_filter.mp hx
      rw [hasLiveKey_encoded (hstorable x hx)]
      rcases hgone x hx with hin | ⟨hle, hdead⟩
      · exact absurd (mem_encoded.mpr ⟨x, List.mem_filter.mpr ⟨hin, hfrom⟩, rfl⟩) hout
      · exact ⟨hle, by simp [hdead]⟩
    refine ⟨_, _, h.readFrom fromRevision, hrefines.readFrom fromRevision,
      (hsub.filter _).map _, ?_, fun r hr hor => ?_, hleft, fun r hr => ?_⟩
    · exact List.pairwise_map.mpr (hrefines.wf.ascending.sublist List.filter_sublist)
    · by_contra hout
      obtain ⟨hle, hdead⟩ := hleft r hr hout
      rcases hor with hlt | hlive
      · omega
      · exact hdead hlive
    · obtain ⟨x, hx, rfl⟩ := mem_encoded.mp hr
      have hx := (List.mem_filter.mp hx).1
      exact ⟨h.recordBytes (hsub.subset hx), hrefines.recordBytes hx⟩
  · obtain ⟨g, hg, hdesc⟩ := hrefines.index.describes_mem (List.mem_append_left _ hf)
    obtain ⟨hspans, hrevisions⟩ := hdesc.spans hi
    have hscan := scan_encodeFile hdesc.storable tornTail_nil
    rw [List.append_nil] at hscan
    refine ⟨_, hdesc.name ▸ hrefines.dir.holds g hg, ?_⟩
    rw [hscan, hspans, hrevisions (hdesc.sparse ▸ hs)]

namespace LogSystem

/-- Whenever no compaction is running, `Compact` succeeds and keeps every live record. -/
theorem compact_keeps_live {archiving : Bool} {as : List Action} {s : LogSystem}
    (hrun : run (init archiving) as = some s) {p : Process} (hup : s.status = .up p)
    (hjob : p.job = none) (through : Nat) (live : FilesystemLog.LiveFunc) :
    ∃ d', p.log.compact through live = .ok d' ∧ DiskLog.Compacted through live p.log d' := by
  obtain ⟨l, hidle⟩ := (sound_run hrun).idle hup hjob
  exact hidle.refines.compacted through live

/-- Two files, one of whose records is dead. -/
theorem compact_keeps_live_twoFiles : ∃ s p, run (init false) twoFiles = some s ∧
    s.status = .up p ∧ ∃ d', p.log.compact 2 (liveAbove 97) = .ok d' ∧
      DiskLog.Compacted 2 (liveAbove 97) p.log d' := by
  obtain ⟨s, hs, hrest⟩ : ∃ s, run (init false) twoFiles = some s ∧ s.resting = true := by
    decide +kernel
  obtain ⟨p, hup, hjob⟩ := resting_up hrest
  exact ⟨s, p, hs, hup, compact_keeps_live hs hup hjob 2 (liveAbove 97)⟩

end LogSystem

end CloudEtcd
