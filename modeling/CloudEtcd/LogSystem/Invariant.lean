/-
# CloudEtcd.LogSystem.Invariant — what holds in every state of the log, its directory and its archive.

In every reachable state the directory can be opened again, or a crash has cut the header of its newest
file short (`Sound`).  Every archived file, and every file that is to be uploaded, is one of the closed
files that the directory recovers to, or lies within one that compaction wrote (`Safe`).  A step of the
system is one of a few kinds (`step_up`, `step_down`), and each keeps the invariant (`Sound.step`).
-/
import CloudEtcd.LogSystem.Moves

namespace CloudEtcd

open FilesystemLog

variable {n : FileName} {l : FilesystemLog}

open LogCodec

/-! ## The archive and the closed files -/

/-- What the archive holds and what it is to receive has its place in the log. -/
structure Safe (archive : Dir) (pending : List ArchiverOp) (b : FilesystemLog) : Prop where
  archived : ∀ n ∈ archive, Within b.closed n
  queued : ∀ op ∈ pending, op.remove = false → Within b.closed op.name

theorem Within.mono {fs gs : List LogFile} (h : Within fs n) (hsub : ∀ f ∈ fs, f ∈ gs) : Within gs n := by
  obtain ⟨f, hf, hor⟩ := h
  exact ⟨f, hsub f hf, hor⟩

theorem within_self {fs : List LogFile} {f : LogFile} (hf : f ∈ fs) : Within fs f.name :=
  ⟨f, hf, Or.inl rfl⟩

/-- A file that lies within the closed files starts before the active file. -/
theorem Within.first_lt (hwf : l.WF) (h : Within l.closed n) : n.first < l.active.first := by
  obtain ⟨f, hf, rfl | hsup⟩ := h
  · rw [f.first_name]
    have := hwf.closed.of_mem hf
    omega
  · have hle := (LogFile.supersedes_iff.mp hsup).2.2
    have := hwf.closed.of_mem hf
    omega

/-- The new file of a group takes the place of its files. -/
theorem Within.compactGroup {pre group rest : List LogFile} {kept : List (Nat × LogRecord)}
    (h : Within l.closed n) (hwf : l.WF) (hclosed : l.closed = pre ++ group ++ rest)
    (hne : group ≠ []) (hsub : kept.Sublist (group.flatMap LogFile.records)) :
    Within (l.compactGroup group kept).closed n := by
  rw [(compactGroup_spec hwf hclosed hne hsub).1]
  obtain ⟨f, hf, hor⟩ := h
  by_cases hin : f ∈ group
  · obtain ⟨a, b, -, hgroup, -⟩ := hwf.split hclosed
    obtain ⟨hfirst, -, -, hlast⟩ := tiled_compactedFile hgroup hne hsub
    change _ + 1 = b at hlast
    have hrange := hgroup.of_mem hin
    have hn : f.first ≤ n.first ∧ n.first ≤ f.last := by
      rcases hor with rfl | hsup
      · rw [f.first_name]
        omega
      · exact (LogFile.supersedes_iff.mp hsup).2
    refine ⟨compactedFile group kept, by simp, Or.inr ?_⟩
    refine LogFile.supersedes_iff.mpr ⟨rfl, ?_, ?_⟩ <;> omega
  · rw [hclosed] at hf
    refine ⟨f, ?_, hor⟩
    simp only [List.mem_append, List.mem_cons] at hf ⊢
    tauto

theorem Within.compacts {b b' : FilesystemLog} (h : Within b.closed n) (hb : Compacts b b') :
    Within b'.closed n := by
  rcases hb with rfl | ⟨pre, group, rest, kept, hwf, hclosed, hne, hsub, rfl⟩
  · exact h
  · exact h.compactGroup hwf hclosed hne hsub

namespace Safe

variable {archive : Dir} {pending : List ArchiverOp} {b b' : FilesystemLog}

theorem of_within (h : Safe archive pending b)
    (hb : ∀ n, Within b.closed n → Within b'.closed n) : Safe archive pending b' :=
  ⟨fun n hn => hb n (h.archived n hn), fun op hop hup => hb _ (h.queued op hop hup)⟩

theorem enqueue (h : Safe archive pending b) {op : ArchiverOp}
    (hop : op.remove = false → Within b.closed op.name) (archiving : Bool) :
    Safe archive (pending ++ if archiving then [op] else []) b := by
  refine ⟨h.archived, fun x hx hup => ?_⟩
  rcases List.mem_append.mp hx with hx | hx
  · exact h.queued x hx hup
  · split at hx
    · rw [List.mem_singleton.mp hx] at hup ⊢
      exact hop hup
    · cases hx

theorem rotate (h : Safe archive pending b) : Safe archive pending b.rotate := by
  obtain ⟨fs, hfs⟩ := b.rotate_closed
  exact h.of_within fun n hn => hn.mono fun f hf => by
    rw [hfs]
    exact List.mem_append_left _ hf

/-- A crash leaves the closed files and may have closed the active one. -/
theorem crashed (h : Safe archive pending b)
    (hclosed : b'.closed = b.closed ∨ ∃ g, b'.closed = b.closed ++ [g] ∧ g.name = b.active.name) :
    Safe archive [] b' := by
  refine ⟨fun n hn => (h.archived n hn).mono fun f hf => ?_, fun op hop => by cases hop⟩
  rcases hclosed with heq | ⟨g, heq, -⟩
  · rw [heq]
    exact hf
  · rw [heq]
    exact List.mem_append_left _ hf

/-- Every effect keeps the invariant. -/
theorem effect {p p' : Process} {l l' : FilesystemLog} (h : Safe archive p.pending b)
    (hrunning : Running p l b) {t : Touch} (heffect : StepEffect p l b t p' l' b') :
    Safe archive p'.pending b' := by
  cases heffect with
  | stay _ hpending | swap _ _ _ _ hpending =>
    rw [hpending]
    exact h
  | append batch _ _ hpending _ =>
    rw [hpending]
    exact h.of_within fun _ hn => hn
  | rotate hne _ hpending _ =>
    rw [hpending]
    refine h.rotate.enqueue (fun _ => ?_) _
    have hactive := hrunning.job.frame.1
    have hclosed : b.rotate.closed = b.closed ++ [b.active] := by
      rw [rotate_eq (hactive ▸ hne)]
    rw [hclosed, ← hactive]
    exact within_self (List.mem_append_right _ (List.mem_singleton_self _))
  | rename _ _ _ _ _ hpending _ hb' | removal _ hpending _ hb' =>
    rw [hpending]
    exact h.of_within fun n hn => hn.compacts hb'
  | enqueue hb _ _ hpending hname =>
    rw [hpending]
    refine h.enqueue (fun hup => ?_) _
    obtain ⟨g, hg, hgn⟩ := hname hup
    rw [hb, ← hgn]
    exact within_self hg

end Safe

/-! ## What a crash leaves -/

/-- The records of the batch that a crash leaves, when the batch follows revision `last`. -/
def Cut.survivors (last : Nat) (cut : Cut) : List LogRecord :=
  match cut.fresh with
  | none => cut.batch.take (wholeRecords cut.written (numberFrom (last + 1) cut.batch))
  | some _ => cut.batch

/-- The directory after a crash: unreadable, or that of a log that may have grown by part of a batch
and by a rotation. -/
theorem Recovers.cutDir {p : Process} {b : FilesystemLog} (hrec : Recovers p.log.dir b)
    (hindex : Indexes p.log l) (hactive : b.active = l.active)
    (hlast : b.lastRevision = l.lastRevision)
    (hdata : p.log.dir.lookup b.active.name = some (encodeFile b.active.records)) {cut : Cut}
    {dir : Dir} (hcut : p.cutDir cut = some dir) :
    Dead dir ∨ ∃ b', Recovers dir b' ∧
      (b'.closed = b.closed ∨ ∃ g, b'.closed = b.closed ++ [g] ∧ g.name = b.active.name) ∧
      (b' = b.published (cut.survivors b.lastRevision) ∨
        b' = (b.published (cut.survivors b.lastRevision)).rotate) := by
  have hname : p.log.active.name = b.active.name := by rw [hindex.active.name, hactive]
  unfold Process.cutDir at hcut
  simp only [hindex.lastRevision, ← hlast, hname] at hcut
  split at hcut
  · next hbatch =>
    split at hcut
    · next hfresh =>
      cases hcut
      have hsurvivors : cut.survivors b.lastRevision = cut.batch.take
          (wholeRecords cut.written (numberFrom (b.lastRevision + 1) cut.batch)) := by
        rw [Cut.survivors, hfresh]
      rw [hsurvivors]
      exact Or.inr ⟨_, hrec.cut hdata hbatch cut.written, Or.inl rfl, Or.inl rfl⟩
    · next n hfresh =>
      have hsurvivors : cut.survivors b.lastRevision = cut.batch := by
        rw [Cut.survivors, hfresh]
      rw [hsurvivors]
      split at hcut
      · next hfull =>
        obtain ⟨hlen, hcount⟩ := hfull
        cases hcut
        -- The whole batch is in the old file; the new one has part of its header.
        rw [List.take_of_length_le hlen]
        have happend := hrec.append hdata hbatch tornTail_nil
        rw [List.append_nil] at happend
        have hwhole : (DiskLog.appendTo p.log.dir b.active.name ((numberFrom
            (b.lastRevision + 1) cut.batch).flatMap write)).lookup
              (b.published cut.batch).active.name =
            some (encodeFile (b.published cut.batch).active.records) := by
          have heq := appendTo_active hdata cut.batch
          rw [batchBytes] at heq
          rw [heq, name_published hrec.wf, AList.lookup_insert]
        have hne : (b.published cut.batch).active.records ≠ [] := by
          intro hnil
          apply hcount
          have hlen := congrArg List.length hnil
          simp only [published, List.length_append, List.length_nil,
            length_numberFrom] at hlen
          rw [hindex.active.count, ← hactive]
          omega
        have hfresh : (DiskLog.freshFile (b.lastRevision + cut.batch.length)).name =
            .dense ((b.published cut.batch).lastRevision + 1) := rfl
        rw [hfresh]
        by_cases hn : n < header.length
        · exact Or.inl (happend.dead hne (by
            rw [List.length_take]
            omega))
        · rw [List.take_of_length_le (by omega)]
          refine Or.inr ⟨_, happend.create hwhole hne, Or.inr ⟨_, ?_,
            name_published hrec.wf cut.batch⟩, Or.inr rfl⟩
          rw [rotate_eq hne]
          rfl
      · cases hcut
  · cases hcut

theorem Running.cutDir {p : Process} {b : FilesystemLog} (h : Running p l b) {cut : Cut} {dir : Dir}
    (hcut : p.cutDir cut = some dir) :
    Dead dir ∨ ∃ b', Recovers dir b' ∧
      (b'.closed = b.closed ∨ ∃ g, b'.closed = b.closed ++ [g] ∧ g.name = b.active.name) ∧
      (b' = b.published (cut.survivors b.lastRevision) ∨
        b' = (b.published (cut.survivors b.lastRevision)).rotate) := by
  obtain ⟨hactive, hlast⟩ := h.job.frame
  refine h.recovers.cutDir h.index hactive hlast ?_ hcut
  rw [hactive]
  exact h.job.active

namespace LogSystem

variable {s s' : LogSystem} {a : Action} {p : Process} {dir archive : Dir} {l b : FilesystemLog}

/-! ## The invariant -/

/-- The state of the directory, in every reachable state. -/
def Sound (s : LogSystem) : Prop :=
  match s.status with
  | .down dir => (dir = ∅ ∧ s.archive = ∅) ∨ Dead dir ∨
      ∃ b, Recovers dir b ∧ Safe s.archive [] b
  | .up p => ∃ l b, Running p l b ∧ Safe s.archive p.pending b ∧ p.log.archiving = s.archiving

theorem sound_init (archiving : Bool) : (init archiving).Sound := Or.inl ⟨rfl, rfl⟩

/-- What a step does while a process runs. -/
theorem step_up (hup : s.status = .up p) (hstep : s.step a = some s') :
    (∃ p', p.move a = some p' ∧ s' = { s with status := .up p' }) ∨
    (a = .carryOut ∧ s.carryOut p = some s') ∨
    (a = .exit ∧ s' = { s with status := .down p.log.dir }) ∨
    ∃ cut dir, a = .crash cut ∧ p.cutDir cut = some dir ∧ s' = { s with status := .down dir } := by
  have hmove : ∀ {x : Option Process}, s.moved x = some s' →
      ∃ p', x = some p' ∧ s' = { s with status := .up p' } := by
    intro x hx
    obtain ⟨p', hp', heq⟩ := Option.map_eq_some_iff.mp hx
    exact ⟨p', hp', heq.symm⟩
  unfold step at hstep
  rw [hup] at hstep
  cases a with
  | start | failStart => cases hstep
  | commit | tick | load | compact | compactStep | take | close => exact Or.inl (hmove hstep)
  | carryOut => exact Or.inr (Or.inl ⟨rfl, hstep⟩)
  | exit =>
    dsimp only at hstep
    split at hstep
    · cases hstep
      exact Or.inr (Or.inr (Or.inl ⟨rfl, rfl⟩))
    · cases hstep
  | crash cut =>
    obtain ⟨dir, hdir, heq⟩ := Option.map_eq_some_iff.mp hstep
    exact Or.inr (Or.inr (Or.inr ⟨cut, dir, rfl, hdir, heq.symm⟩))

/-- What the archiver's step does. -/
theorem carryOut_spec (h : s.carryOut p = some s') :
    ∃ op, p.current = some op ∧
      ((op.remove = true ∧ s' = { s with
          archive := s.archive.erase op.name
          status := .up { p with current := none } }) ∨
        (op.remove = false ∧ p.log.dir.lookup op.name = none ∧ s' = s) ∨
        ∃ data, op.remove = false ∧ p.log.dir.lookup op.name = some data ∧
          ((s.archive.lookup op.name = none ∧ s' = { s with
              archive := s.archive.insert op.name data
              status := .up { p.markArchived op.name with current := none } }) ∨
            (s.archive.lookup op.name = some data ∧ s' = { s with
              status := .up { p.markArchived op.name with current := none } }) ∨
            ∃ held, s.archive.lookup op.name = some held ∧ held ≠ data ∧
              s' = { s with status := .down p.log.dir })) := by
  unfold carryOut at h
  split at h
  · cases h
  · next op hcurrent =>
    refine ⟨op, hcurrent, ?_⟩
    split at h
    · next hremove =>
      cases h
      exact Or.inl ⟨hremove, rfl⟩
    · next hremove =>
      have hup : op.remove = false := by simpa using hremove
      split at h
      · next hdir =>
        cases h
        exact Or.inr (Or.inl ⟨hup, hdir, rfl⟩)
      · next data hdir =>
        refine Or.inr (Or.inr ⟨data, hup, hdir, ?_⟩)
        rw [← Option.some.inj h, createObject]
        cases hheld : s.archive.lookup op.name with
        | none => exact Or.inl ⟨rfl, rfl⟩
        | some held =>
          by_cases heq : held = data
          · exact Or.inr (Or.inl ⟨congrArg _ heq, if_pos heq⟩)
          · exact Or.inr (Or.inr ⟨held, rfl, heq, if_neg heq⟩)

/-! ## Starting -/

/-- The log in a directory where no log has been. -/
def emptyLog (opts : Options) : FilesystemLog where
  opts := opts.withDefaults
  closed := []
  active := newActiveFile 0
  lastRevision := 0
  cache := RecordCache.new opts.withDefaults.cacheBytes

theorem wf_emptyLog (opts : Options) : (emptyLog opts).WF :=
  ⟨rfl, wf_newActiveFile 0, rfl, rfl⟩

theorem onDisk_emptyLog (opts : Options) : ∀ g ∈ (emptyLog opts).files, g.OnDisk := by
  intro g hg
  rw [List.mem_singleton.mp hg]
  exact onDisk_newActiveFile 0

/-- A directory with the first active file only. -/
theorem holdsOnly_emptyLog (opts : Options)
    (hdir : ∀ n, dir.lookup n = if n = .dense 1 then some header else none) :
    HoldsOnly dir (emptyLog opts).files := by
  constructor
  · intro g hg
    rw [List.mem_singleton.mp hg]
    exact hdir (.dense 1)
  · intro n hn
    obtain ⟨data, hdata⟩ := Dir.mem_iff_lookup.mp hn
    rw [hdir] at hdata
    split at hdata
    · next heq => exact ⟨_, List.mem_singleton_self _, heq.symm⟩
    · cases hdata

theorem lookup_singleton (hdir : dir = ∅) (data : Bytes) (n : FileName) :
    (dir.insert (.dense 1) data).lookup n = if n = .dense 1 then some data else none := by
  subst hdir
  by_cases hn : n = .dense 1
  · subst hn
    rw [AList.lookup_insert, if_pos rfl]
  · rw [AList.lookup_insert_ne hn, if_neg hn]
    rfl

/-- `open` on an empty directory, with nothing in the archive. -/
theorem openLog_empty (opts : Options) (archiving : Bool) :
    ∃ log, DiskLog.openLog opts archiving ∅ ∅ = (log.dir, .ok log) ∧
      Refines log (emptyLog opts) ∧ log.archiving = archiving ∧ log.queue = [] ∧
      log.dir = AList.insert (.dense 1) header ∅ := by
  refine ⟨⟨opts.withDefaults, archiving, AList.insert (.dense 1) header ∅, [],
    DiskLog.freshFile 0, 0, []⟩, ?_, ⟨⟨rfl, .nil, describes_freshFile 0, rfl, rfl⟩, wf_emptyLog opts,
    holdsOnly_emptyLog opts (lookup_singleton rfl header)⟩, rfl, rfl, rfl⟩
  cases archiving with
  | false => rfl
  | true => rfl

/-- A process that has just opened the log. -/
theorem running_of_refines {log : DiskLog} (h : Refines log l) :
    Running { log := log } l l := ⟨h.index, h.wf, .idle h.dir⟩

/-- The queue after `open` has its place in the log. -/
theorem safe_opened (h : Safe archive [] b) (archiving : Bool) : Safe archive
      (if archiving then removals archive b.files ++ uploads archive b.closed else []) b := by
  refine ⟨h.archived, fun op hop hup => ?_⟩
  split at hop
  · rcases List.mem_append.mp hop with hop | hop
    · obtain ⟨n, -, rfl⟩ := List.mem_map.mp hop
      cases hup
    · obtain ⟨g, hg, rfl⟩ := List.mem_map.mp hop
      exact within_self (List.mem_of_mem_filter hg)
  · cases hop

/-- The active file of a log is not in the archive. -/
theorem active_not_archived {pending : List ArchiverOp} (h : Safe archive pending b) (hwf : b.WF) :
    b.active.name ∉ archive := fun hin => by
  have := (h.archived _ hin).first_lt hwf
  rw [b.active.first_name] at this
  exact lt_irrefl _ this

/-- Files that are not listed can go. -/
theorem not_kept_of_superseded {k : Nat} :
    ∀ n ∈ (dir.names.filter (· ∉ keepFiles none dir.names)).take k,
      n ∉ keepFiles none dir.names := fun n hn => by
  simpa using (List.mem_filter.mp (List.mem_of_mem_take hn)).2

/-- What a step does while no process runs. -/
theorem step_down (hdown : s.status = .down dir) (hstep : s.step a = some s') :
    (∃ opts log, a = .start opts ∧
      (DiskLog.openLog opts s.archiving s.archive dir).2 = .ok log ∧
        s' = { s with status := .up { log := log } }) ∨
    (∃ opts dir' e, a = .start opts ∧
      DiskLog.openLog opts s.archiving s.archive dir = (dir', .error e) ∧
        s' = { s with status := .down dir' }) ∨
    (∃ k, s' = { s with status := .down (Dir.removeAll dir
      ((dir.names.filter (· ∉ keepFiles none dir.names)).take k)) }) ∨
    ∃ log k, (DiskLog.openLog ⟨0, 0⟩ s.archiving s.archive dir).2 = .ok log ∧
      log.active.name ∉ dir ∧
      s' = { s with status := .down (log.dir.insert log.active.name (header.take k)) } := by
  unfold step at hstep
  rw [hdown] at hstep
  cases a with
  | start opts =>
    dsimp only at hstep
    split at hstep
    · next log heq =>
      cases hstep
      exact Or.inl ⟨opts, log, rfl, by rw [heq], rfl⟩
    · next dir' e heq =>
      cases hstep
      exact Or.inr (Or.inl ⟨opts, dir', e, rfl, heq, rfl⟩)
  | failStart cut =>
    cases cut with
    | listing k =>
      cases hstep
      exact Or.inr (Or.inr (Or.inl ⟨k, rfl⟩))
    | creating k =>
      dsimp only at hstep
      split at hstep
      · next log heq =>
        split at hstep
        · cases hstep
        · next hnot =>
          cases hstep
          exact Or.inr (Or.inr (Or.inr ⟨log, k, by rw [heq], hnot, rfl⟩))
      · cases hstep
  | _ => cases hstep

/-- Opening the directory of a log that was left behind. -/
theorem opened (hrec : Recovers dir b) (hsafe : Safe s.archive [] b) (opts : Options) :
    ∃ log, DiskLog.openLog opts s.archiving s.archive dir = (log.dir, .ok log) ∧
      Refines log { b with opts := opts.withDefaults } ∧ log.archiving = s.archiving ∧
      log.queue = if s.archiving then removals s.archive b.files ++ uploads s.archive b.closed
        else [] :=
  hrec.openLog opts (fun _ => hsafe.archived) (active_not_archived hsafe hrec.wf)

/-! ## Every step keeps the invariant -/

theorem Sound.up (h : s.Sound) (hup : s.status = .up p) :
    ∃ l b, Running p l b ∧ Safe s.archive p.pending b ∧ p.log.archiving = s.archiving := by
  unfold Sound at h
  rwa [hup] at h

theorem Sound.down (h : s.Sound) (hdown : s.status = .down dir) :
    (dir = ∅ ∧ s.archive = ∅) ∨ Dead dir ∨ ∃ b, Recovers dir b ∧ Safe s.archive [] b := by
  unfold Sound at h
  rwa [hdown] at h

/-- The first active file, created with part of its header. -/
theorem created_first (k : Nat)
    (hdir : ∀ n, dir.lookup n = if n = .dense 1 then some (header.take k) else none) :
    k < header.length ∧ Dead dir ∨ header.length ≤ k ∧ Recovers dir (emptyLog ⟨0, 0⟩) := by
  have hnames : dir.names = [.dense 1] := by
    refine Dir.names_eq (List.pairwise_singleton _ _) fun n => ?_
    rw [List.mem_singleton, Dir.mem_iff_lookup, hdir]
    by_cases hn : n = .dense 1 <;> simp [hn]
  by_cases hk : k < header.length
  · refine Or.inl ⟨hk, .dense 1, ?_, .badHeader, ?_⟩
    · rw [hnames]
      exact List.mem_singleton_self _
    · rw [hdir, if_pos rfl]
      refine scan_short ?_
      show (header.take k).length < _
      rw [List.length_take]
      omega
  · rw [List.take_of_length_le (by omega)] at hdir
    exact Or.inr ⟨by omega, (holdsOnly_emptyLog _ hdir).recovers (wf_emptyLog _)
      (onDisk_emptyLog _)⟩

theorem lookup_create (hdir : dir = AList.insert (.dense 1) header ∅) (k : Nat) (n : FileName) :
    (dir.insert (FileName.dense 1) (header.take k)).lookup n =
      if n = .dense 1 then some (header.take k) else none := by
  subst hdir
  by_cases hn : n = .dense 1
  · subst hn
    rw [AList.lookup_insert, if_pos rfl]
  · rw [AList.lookup_insert_ne hn, AList.lookup_insert_ne hn, if_neg hn]
    rfl

/-- A step on a machine that has never run the log. -/
theorem step_empty (hdown : s.status = .down ∅) (hempty : s.archive = ∅)
    (hstep : s.step a = some s') :
    (∃ opts log, a = .start opts ∧ (DiskLog.openLog opts s.archiving s.archive ∅).2 = .ok log ∧
      s' = { s with status := .up { log := log } } ∧ Refines log (emptyLog opts) ∧
      log.archiving = s.archiving ∧ log.queue = []) ∨
    ∃ dir, s' = { s with status := .down dir } ∧
      (dir = ∅ ∨ Dead dir ∨ Recovers dir (emptyLog ⟨0, 0⟩)) := by
  rcases LogSystem.step_down hdown hstep with ⟨opts, log, rfl, hopen, rfl⟩ |
    ⟨opts, dir', e, -, hopen, rfl⟩ | ⟨k, rfl⟩ | ⟨log, k, hopen, hnot, rfl⟩
  · obtain ⟨log', hopen', hrefines, harch, hqueue, -⟩ := openLog_empty opts s.archiving
    have heq : log' = log := by
      rw [hempty, hopen'] at hopen
      exact Except.ok.inj hopen
    subst heq
    exact Or.inl ⟨opts, log', rfl, hopen, rfl, hrefines, harch, hqueue⟩
  · obtain ⟨log', hopen', -⟩ := openLog_empty opts s.archiving
    rw [hempty, hopen'] at hopen
    cases hopen
  · refine Or.inr ⟨_, rfl, Or.inl ?_⟩
    have hnames : (∅ : Dir).names = [] := rfl
    rw [hnames]
    simp [Dir.removeAll]
  · obtain ⟨log', hopen', hrefines, -, -, hdir⟩ := openLog_empty ⟨0, 0⟩ s.archiving
    rw [hempty, hopen'] at hopen
    cases hopen
    have hname : log.active.name = .dense 1 := hrefines.index.active.name
    refine Or.inr ⟨_, rfl, Or.inr ?_⟩
    rw [hname]
    rcases created_first k (lookup_create hdir k) with ⟨-, hdead⟩ | ⟨-, hrec⟩
    · exact Or.inl hdead
    · exact Or.inr hrec

/-- A directory that cannot be opened stays one. -/
theorem step_dead (hdown : s.status = .down dir) (hdead : Dead dir) (hstep : s.step a = some s') :
    ∃ dir', s' = { s with status := .down dir' } ∧ Dead dir' := by
  rcases LogSystem.step_down hdown hstep with ⟨opts, log, rfl, hopen, rfl⟩ |
    ⟨opts, dir', e, -, hopen, rfl⟩ | ⟨k, rfl⟩ | ⟨log, k, hopen, hnot, rfl⟩
  · obtain ⟨dir', e, hopen', -⟩ := hdead.openLog opts s.archiving s.archive
    rw [hopen'] at hopen
    cases hopen
  · obtain ⟨dir'', e', hopen', hdead'⟩ := hdead.openLog opts s.archiving s.archive
    rw [hopen'] at hopen
    cases hopen
    exact ⟨_, rfl, hdead'⟩
  · exact ⟨_, rfl, hdead.removeAll not_kept_of_superseded⟩
  · obtain ⟨dir', e, hopen', -⟩ := hdead.openLog ⟨0, 0⟩ s.archiving s.archive
    rw [hopen'] at hopen
    cases hopen

/-- A step on the directory that a process left behind: the log is opened, or still to be found
there. -/
theorem step_left (hdown : s.status = .down dir) (hrec : Recovers dir b)
    (hsafe : Safe s.archive [] b) (hstep : s.step a = some s') :
    (∃ opts log, a = .start opts ∧ (DiskLog.openLog opts s.archiving s.archive dir).2 = .ok log ∧
      s' = { s with status := .up { log := log } } ∧
      Refines log { b with opts := opts.withDefaults } ∧ log.archiving = s.archiving ∧
      Safe s.archive log.queue b) ∨
    ∃ dir', s' = { s with status := .down dir' } ∧ Recovers dir' b := by
  rcases LogSystem.step_down hdown hstep with ⟨opts, log, rfl, hopen, rfl⟩ |
    ⟨opts, dir', e, -, hopen, rfl⟩ | ⟨k, rfl⟩ | ⟨log, k, hopen, hnot, rfl⟩
  · obtain ⟨log', hopen', hrefines, harch, hqueue⟩ := opened hrec hsafe opts
    have heq : log' = log := by
      rw [hopen'] at hopen
      exact Except.ok.inj hopen
    subst heq
    refine Or.inl ⟨opts, log', rfl, hopen, rfl, hrefines, harch, ?_⟩
    rw [hqueue]
    exact safe_opened hsafe s.archiving
  · obtain ⟨log', hopen', -⟩ := opened hrec hsafe opts
    rw [hopen'] at hopen
    cases hopen
  · exact Or.inr ⟨_, rfl, hrec.removeAll not_kept_of_superseded⟩
  · -- The active file is there, so that none is created.
    obtain ⟨log', hopen', hrefines, -⟩ := opened hrec hsafe ⟨0, 0⟩
    rw [hopen'] at hopen
    cases hopen
    rw [hrefines.index.active.name] at hnot
    exact absurd hrec.active_mem hnot

/-- An empty archive is safe. -/
theorem safe_empty (h : archive = ∅) (b : FilesystemLog) : Safe archive [] b := by
  refine ⟨fun n hn => ?_, fun op hop => by cases hop⟩
  rw [h] at hn
  cases hn

theorem Sound.step_down (h : s.Sound) (hdown : s.status = .down dir) (hstep : s.step a = some s') :
    s'.Sound := by
  rcases h.down hdown with ⟨rfl, hempty⟩ | hdead | ⟨b, hrec, hsafe⟩
  · rcases step_empty hdown hempty hstep with ⟨opts, log, -, -, rfl, hrefines, harch, hqueue⟩ |
      ⟨dir', rfl, rfl | hdead | hrec⟩
    · refine ⟨_, _, running_of_refines hrefines, ?_, harch⟩
      show Safe s.archive ([] ++ log.queue) _
      rw [List.nil_append, hqueue]
      exact safe_empty hempty _
    · exact Or.inl ⟨rfl, hempty⟩
    · exact Or.inr (Or.inl hdead)
    · exact Or.inr (Or.inr ⟨_, hrec, safe_empty hempty _⟩)
  · obtain ⟨dir', rfl, hdead'⟩ := step_dead hdown hdead hstep
    exact Or.inr (Or.inl hdead')
  · rcases step_left hdown hrec hsafe hstep with ⟨opts, log, -, -, rfl, hrefines, harch, hsafe'⟩ |
      ⟨dir', rfl, hrec'⟩
    · exact ⟨_, _, running_of_refines hrefines, ⟨hsafe'.archived, hsafe'.queued⟩, harch⟩
    · exact Or.inr (Or.inr ⟨b, hrec', hsafe⟩)

/-- The process after the archiver has finished an operation. -/
theorem running_finished (h : Running p l b) :
    Running { p with current := none } l b := ⟨h.index, h.wf, h.job⟩

theorem pending_of_current {op : ArchiverOp} (h : p.current = some op) :
    p.pending = op :: p.log.queue := by
  simp [Process.pending, h]

/-- The archiver's step leaves the log alone; on a conflict the process dies. -/
theorem carryOut_running (hup : s.status = .up p) (hrunning : Running p l b)
    (hsafe : Safe s.archive p.pending b) (hcarry : s.carryOut p = some s') :
    (∃ p', s' = { s with archive := s'.archive, status := .up p' } ∧ Running p' l b ∧
      Safe s'.archive p'.pending b ∧ p'.log.archiving = p.log.archiving ∧
      p'.closing = p.closing ∧ p'.job = p.job) ∨
    s' = { s with status := .down p.log.dir } := by
  obtain ⟨op, hcurrent, hcases⟩ := carryOut_spec hcarry
  have hpending := pending_of_current hcurrent
  have hrest : ∀ x ∈ p.log.queue, x.remove = false → Within b.closed x.name := fun x hx =>
    hsafe.queued x (by rw [hpending]; exact List.mem_cons_of_mem _ hx)
  have hmarked := running_finished (hrunning.markArchived op.name).1
  rcases hcases with ⟨-, rfl⟩ | ⟨-, -, rfl⟩ | ⟨data, hupload, -, ⟨-, rfl⟩ | ⟨-, rfl⟩ |
    ⟨held, -, -, rfl⟩⟩
  · refine Or.inl ⟨_, rfl, running_finished hrunning, ⟨fun n hn => ?_, hrest⟩, rfl, rfl, rfl⟩
    exact hsafe.archived n (AList.mem_erase.mp hn).2
  · refine Or.inl ⟨p, ?_, hrunning, hsafe, rfl, rfl, rfl⟩
    rw [← hup]
  · refine Or.inl ⟨_, rfl, hmarked, ⟨fun n hn => ?_, hrest⟩, rfl, rfl, rfl⟩
    rcases (AList.mem_insert _).mp hn with rfl | hn
    · exact hsafe.queued op (by rw [hpending]; exact List.mem_cons_self) hupload
    · exact hsafe.archived n hn
  · exact Or.inl ⟨_, rfl, hmarked, ⟨hsafe.archived, hrest⟩, rfl, rfl, rfl⟩
  · exact Or.inr rfl

theorem Sound.carryOut (h : s.Sound) (hup : s.status = .up p) (hcarry : s.carryOut p = some s') :
    s'.Sound := by
  obtain ⟨l, b, hrunning, hsafe, harch⟩ := h.up hup
  rcases carryOut_running hup hrunning hsafe hcarry with
    ⟨p', hs', hrunning', hsafe', harch', -, -⟩ | rfl
  · rw [hs']
    exact ⟨l, b, hrunning', hsafe', harch'.trans harch⟩
  · exact Or.inr (Or.inr ⟨b, hrunning.recovers, hsafe.archived, fun x hx => by cases hx⟩)

theorem Sound.step_up (h : s.Sound) (hup : s.status = .up p) (hstep : s.step a = some s') : s'.Sound := by
  obtain ⟨l, b, hrunning, hsafe, harch⟩ := h.up hup
  rcases LogSystem.step_up hup hstep with ⟨p', hmove, rfl⟩ | ⟨-, hcarry⟩ | ⟨-, rfl⟩ |
    ⟨cut, dir, -, hcut, rfl⟩
  · obtain ⟨l', b', hrunning', hmoves⟩ := hrunning.move hmove
    have harch' := hmoves.archiving
    refine ⟨l', b', hrunning', ?_, harch'.trans harch⟩
    exact hmoves.invariant (I := fun p _ b => Safe s.archive p.pending b)
      (fun _ _ _ _ _ _ hr hs he _ => hs.effect hr he)
      (fun _ _ _ _ he _ => hsafe.effect hrunning he)
      hsafe
  · exact h.carryOut hup hcarry
  · exact Or.inr (Or.inr ⟨b, hrunning.recovers, hsafe.archived, fun op hop => by cases hop⟩)
  · rcases hrunning.cutDir hcut with hdead | ⟨b', hrec, hclosed, -⟩
    · exact Or.inr (Or.inl hdead)
    · exact Or.inr (Or.inr ⟨b', hrec, hsafe.crashed hclosed⟩)

/-- Every step keeps the invariant. -/
theorem Sound.step (h : s.Sound) (hstep : s.step a = some s') : s'.Sound := by
  cases hstatus : s.status with
  | down dir => exact h.step_down hstatus hstep
  | up p => exact h.step_up hstatus hstep

/-- It holds in every state of every run. -/
theorem sound_run {archiving : Bool} {as : List Action} (h : run (init archiving) as = some s) :
    s.Sound :=
  Transition.run_invariant (fun _ _ _ hs hstep => Sound.step hs hstep) h (sound_init archiving)

end LogSystem

end CloudEtcd
