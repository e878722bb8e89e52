/-
# CloudEtcd.LogSystem.Lossless — when the archive loses nothing.

The runs of the log with an archive, with crashes and restarts.  If every start finds archived what has
taken the place of archived files, the archive covers at every later moment what it has ever covered,
and can be restored (`Kept.step`).  A start that does not find it so queues the removals in front of
the upload of the file that covers them, and the archiver, getting as far as the removals, leaves a gap
(`lost_of_bad_start`).  Together: `archive_lossless_iff`.
-/
import CloudEtcd.LogSystem.Coverage
import CloudEtcd.LogSystem.Uploads

namespace CloudEtcd

open LogCodec Blocks Transition LogFile

namespace LogSystem

/-! ## Starts -/

/-- The options of a start. -/
def Action.starts : Action → Option Options
  | .start opts => some opts
  | _ => none

/-- The directory while no process runs. -/
def downDir (s : LogSystem) : Option Dir :=
  match s.status with
  | .down dir => some dir
  | .up _ => none

/-- The archived file is still listed in the directory, or a listed file covers it that is archived
too. -/
def Replaced (archive : Dir) (kept : List FileName) (n : FileName) : Prop :=
  n ∈ kept ∨ ∃ f ∈ kept, f ∈ archive ∧ f.supersedes n.first = true

instance (archive : Dir) (kept : List FileName) (n : FileName) :
    Decidable (Replaced archive kept n) := inferInstanceAs (Decidable (_ ∨ ∃ f ∈ kept, _))

/-- A start that succeeds finds the files archived that took the place of archived files. -/
def GoodStart (s : LogSystem) (a : Action) : Prop :=
  ∀ opts ∈ a.starts, ∀ dir ∈ s.downDir,
    (DiskLog.openLog opts s.archiving s.archive dir).2.isOk = true →
      ∀ n ∈ s.archive.names, Replaced s.archive (keepFiles none dir.names) n

instance (s : LogSystem) (a : Action) : Decidable (s.GoodStart a) :=
  inferInstanceAs (Decidable (∀ opts ∈ a.starts, _))

/-! ## The invariant -/

/-- The archive is a line up to `M` and stays one. -/
def Kept (M : Nat) (s : LogSystem) : Prop :=
  s.archiving = true ∧
  match s.status with
  | .down dir => ∃ ends, Stocked ends s.archive (fun _ => True) ∧
      ArchiveLine ends (dirNames s.archive) M ∧
      ((dir = ∅ ∧ s.archive = ∅) ∨ Dead dir ∨
        ∃ b, Recovers dir b ∧ Safe s.archive [] b ∧ EndsOf ends b.closed)
  | .up p => ∃ l b ends, Running p l b ∧ Safe s.archive p.pending b ∧ p.log.archiving = true ∧
      Planned s.archive p l b ends M

variable {dir : Dir}

namespace Kept

variable {M : Nat} {s s' : LogSystem} {p : Process}

theorem up (h : Kept M s) (hup : s.status = .up p) : ∃ l b ends, Running p l b ∧
    Safe s.archive p.pending b ∧ p.log.archiving = true ∧ Planned s.archive p l b ends M := by
  have h' := h.2
  rwa [hup] at h'

theorem down (h : Kept M s) (hdown : s.status = .down dir) : ∃ ends,
    Stocked ends s.archive (fun _ => True) ∧ ArchiveLine ends (dirNames s.archive) M ∧
      ((dir = ∅ ∧ s.archive = ∅) ∨ Dead dir ∨
        ∃ b, Recovers dir b ∧ Safe s.archive [] b ∧ EndsOf ends b.closed) := by
  have h' := h.2
  rwa [hdown] at h'

theorem line (h : Kept M s) : ∃ ends, Stocked ends s.archive (fun _ => True) ∧
    ArchiveLine ends (dirNames s.archive) M := by
  cases hstatus : s.status with
  | down dir =>
    obtain ⟨ends, hstock, hline, -⟩ := h.down hstatus
    exact ⟨ends, hstock, hline⟩
  | up p =>
    obtain ⟨l, b, ends, -, -, -, hplanned⟩ := h.up hstatus
    exact ⟨ends, hplanned.vault, hplanned.plan.line⟩

theorem covers_iff (h : Kept M s) (N : Nat) : Covers s.archive N ↔ N ≤ M := by
  obtain ⟨ends, hstock, hline⟩ := h.line
  exact CloudEtcd.covers_iff hstock hline N

theorem restores (h : Kept M s) {N : Nat} (hN : N ≤ M) : Restores s.archive N := by
  obtain ⟨ends, hstock, hline⟩ := h.line
  exact restores_of_line hstock hline hN

end Kept

theorem kept_init : Kept 0 (init true) := by
  refine ⟨rfl, ?_⟩
  show ∃ ends, _ ∧ _ ∧ _
  refine ⟨fun _ => 0, ?_, ?_, Or.inl ⟨rfl, rfl⟩⟩
  · intro n hn
    cases hn
  have hempty : dirNames (init true).archive = ∅ := by
    ext n
    refine iff_of_false (fun hn => ?_) (Set.notMem_empty n)
    cases hn
  rw [hempty]
  exact Line.empty

/-! ## The archiver -/

theorem dirNames_erase (d : Dir) (n : FileName) : dirNames (d.erase n) = dirNames d \ {n} := by
  ext m
  show m ∈ d.erase n ↔ _
  rw [AList.mem_erase]
  exact and_comm

theorem dirNames_insert (d : Dir) (n : FileName) (data : Bytes) :
    dirNames (d.insert n data) = insert n (dirNames d) := by
  ext m
  exact AList.mem_insert _

variable {M : Nat} {s s' : LogSystem} {p : Process}

/-- The archiver's step follows the plan. -/
theorem Kept.carryOut (h : Kept M s)
    (hup : s.status = .up p) (hcarry : s.carryOut p = some s') : ∃ M', M ≤ M' ∧ Kept M' s' := by
  obtain ⟨l, b, ends, hrunning, hsafe, harch, hplanned⟩ := h.up hup
  obtain ⟨op, hcurrent, hcases⟩ := carryOut_spec hcarry
  have hpending := pending_of_current hcurrent
  have hplan := hplanned.plan
  have hrest := hplanned.rest
  have hfinal := hplanned.final
  rw [hpending] at hplan hrest hfinal
  obtain ⟨hline, M', hle, hplan'⟩ := hplan
  rw [play_cons] at hrest
  rw [List.cons_append, play_cons] at hfinal
  have hsafeRest : ∀ x ∈ p.log.queue, x.remove = false → Within b.closed x.name := fun x hx =>
    hsafe.queued x (by rw [hpending]; exact List.mem_cons_of_mem _ hx)
  have hmarked := running_finished (hrunning.markArchived op.name).1
  rcases hcases with ⟨hremove, rfl⟩ | ⟨-, -, rfl⟩ | ⟨data, hupload, hdata, ⟨-, rfl⟩ | ⟨hheld, rfl⟩ |
    ⟨held, -, -, rfl⟩⟩
  · -- A removal.
    have hact : op.act (dirNames s.archive) = dirNames (s.archive.erase op.name) := by
      rw [dirNames_erase, ArchiverOp.act, if_pos hremove]
    rw [hact] at hplan' hrest hfinal
    refine ⟨M', hle, h.1, l, b, ends, running_finished hrunning, ⟨fun n hn => ?_, hsafeRest⟩, harch,
      hplanned.vault.erase op.name, hplanned.shelf, hplanned.index, hplanned.back, hplan', hrest,
      hfinal⟩
    exact hsafe.archived n (AList.mem_erase.mp hn).2
  · exact ⟨M, le_rfl, h⟩
  · -- An upload under a new name.
    have hact : op.act (dirNames s.archive) = dirNames (s.archive.insert op.name data) := by
      rw [dirNames_insert, play_upload op hupload]
    rw [hact] at hplan' hrest hfinal
    have hwithin : Within b.closed op.name :=
      hsafe.queued op (by rw [hpending]; exact List.mem_cons_self) hupload
    have hne : op.name ≠ l.active.name := fun heq => by
      have := hwithin.first_lt hrunning.recovers.wf
      rw [hrunning.job.frame.1, heq, l.active.first_name] at this
      exact lt_irrefl _ this
    obtain ⟨g, hname, hdisk, hgle, hgdata, hglast⟩ :=
      hplanned.shelf op.name (Dir.mem_iff_lookup.mpr ⟨data, hdata⟩) hne
    have hvault : Stocked ends (s.archive.insert op.name data) fun _ => True := by
      rw [hdata] at hgdata
      rw [Option.some.inj hgdata, ← hname]
      exact hplanned.vault.insert hdisk hgle (hname ▸ hglast)
    refine ⟨M', hle, h.1, l, b, ends, hmarked, ⟨fun n hn => ?_, hsafeRest⟩, harch, hvault,
      hplanned.shelf, hplanned.index, hplanned.back, hplan', hrest, hfinal⟩
    rcases (AList.mem_insert _).mp hn with rfl | hn
    · exact hwithin
    · exact hsafe.archived n hn
  · -- The file is archived already.
    have hact : op.act (dirNames s.archive) = dirNames s.archive := by
      rw [play_upload op hupload]
      exact Set.insert_eq_of_mem (Dir.mem_iff_lookup.mpr ⟨data, hheld⟩)
    rw [hact] at hplan' hrest hfinal
    exact ⟨M', hle, h.1, l, b, ends, hmarked, ⟨hsafe.archived, hsafeRest⟩, harch, hplanned.vault,
      hplanned.shelf, hplanned.index, hplanned.back, hplan', hrest, hfinal⟩
  · exact ⟨M, le_rfl, h.1, ends, hplanned.vault, hplanned.plan.line, Or.inr (Or.inr
      ⟨b, hrunning.recovers, ⟨hsafe.archived, fun x hx => by cases hx⟩, hplanned.back⟩)⟩

/-! ## Crashes -/

theorem Kept.crash (h : Kept M s) (hup : s.status = .up p) {cut : Cut}
    (hcut : p.cutDir cut = some dir) : Kept M { s with status := .down dir } := by
  obtain ⟨l, b, ends, hrunning, hsafe, harch, hplanned⟩ := h.up hup
  have hrec := hrunning.recovers
  have hline := hplanned.plan.line
  refine ⟨h.1, ?_⟩
  rcases hrunning.cutDir hcut with hdead | ⟨b', hrec', hclosed, -⟩
  · exact ⟨ends, hplanned.vault, hline, Or.inr (Or.inl hdead)⟩
  · have hsafe' := hsafe.crashed hclosed
    rcases hclosed with heq | ⟨g, heq, hname⟩
    · exact ⟨ends, hplanned.vault, hline, Or.inr (Or.inr ⟨b', hrec', hsafe', heq ▸ hplanned.back⟩)⟩
    · -- The active file was closed; it is not archived, so no block has changed.
      have hnot := active_not_archived hsafe hrec.wf
      have hdense : b.active.name = .dense b.active.first := by
        simp [name, hrec.wf.dense]
      have hsame : ∀ n, n ≠ b.active.name →
          n.last (withEnd ends b.active.first g.last) = n.last ends := fun n hn =>
        last_withEnd_of_ne (hdense ▸ hn) ends _
      refine ⟨withEnd ends b.active.first g.last, ?_, ?_, Or.inr (Or.inr ⟨b', hrec', hsafe', ?_⟩)⟩
      · exact hplanned.vault.congr fun n hn _ =>
          ⟨trivial, hsame n fun heq => hnot (heq ▸ hn)⟩
      · exact hline.congr fun n hn => (hsame n fun heq => hnot (heq ▸ hn)).symm
      · intro x hx
        rw [heq] at hx
        rcases List.mem_append.mp hx with hx | hx
        · rw [hsame _ (hrec.wf.closed_name_ne hx)]
          exact hplanned.back x hx
        · rw [List.mem_singleton.mp hx, hname, hdense]
          exact last_withEnd_self _ _ _

variable {a : Action}

theorem Kept.step_up (h : Kept M s)
    (hup : s.status = .up p) (hstep : s.step a = some s') : ∃ M', M ≤ M' ∧ Kept M' s' := by
  obtain ⟨l, b, ends, hrunning, hsafe, harch, hplanned⟩ := h.up hup
  rcases LogSystem.step_up hup hstep with ⟨p', hmove, rfl⟩ | ⟨-, hcarry⟩ | ⟨-, rfl⟩ |
    ⟨cut, dir, -, hcut, rfl⟩
  · obtain ⟨l', b', hrunning', hmoves⟩ := hrunning.move hmove
    have heffect : ∀ p l b p' l' b' t, Running p l b →
        (Safe s.archive p.pending b ∧ p.log.archiving = true ∧
          ∃ ends, Planned s.archive p l b ends M) →
        StepEffect p l b t p' l' b' → p'.log.archiving = p.log.archiving →
        Safe s.archive p'.pending b' ∧ p'.log.archiving = true ∧
          ∃ ends, Planned s.archive p' l' b' ends M := by
      rintro p l b p' l' b' t hr ⟨hs, ha, ends, hplan⟩ he harch
      exact ⟨hs.effect hr he, harch.trans ha, hplan.effect hr hs ha he⟩
    obtain ⟨hsafe', harch', ends', hplanned'⟩ := hmoves.invariant
      (fun _ _ _ _ _ _ => heffect _ _ _ _ _ _ _)
      (fun _ _ _ _ => heffect _ _ _ _ _ _ _ hrunning ⟨hsafe, harch, ends, hplanned⟩)
      ⟨hsafe, harch, ends, hplanned⟩
    exact ⟨M, le_rfl, h.1, l', b', ends', hrunning', hsafe', harch', hplanned'⟩
  · exact h.carryOut hup hcarry
  · exact ⟨M, le_rfl, h.1, ends, hplanned.vault, hplanned.plan.line, Or.inr (Or.inr
      ⟨b, hrunning.recovers, ⟨hsafe.archived, fun x hx => by cases hx⟩, hplanned.back⟩)⟩
  · exact ⟨M, le_rfl, h.crash hup hcut⟩

/-! ## Starts that keep the line -/

section Start

variable {ends : Nat → Nat} {archive : Dir} {b : FilesystemLog} {M : Nat}

/-- The archived files that the log no longer has. -/
def gone (archive : Dir) (b : FilesystemLog) : List FileName :=
  archive.names.filter (· ∉ b.files.map name)

theorem mem_gone {n : FileName} : n ∈ gone archive b ↔ n ∈ archive ∧ n ∉ b.files.map name := by
  rw [gone, List.mem_filter, Dir.mem_names, decide_eq_true_eq]

/-- An archived file of the log is a closed one. -/
theorem closed_of_archived (hsafe : Safe archive [] b) (hwf : b.WF) {n : FileName} (hn : n ∈ archive)
    (hin : n ∈ b.files.map name) : ∃ g ∈ b.closed, g.name = n := by
  obtain ⟨g, hg, rfl⟩ := List.mem_map.mp hin
  rcases List.mem_append.mp hg with hg | hg
  · exact ⟨g, hg, rfl⟩
  · rw [List.mem_singleton.mp hg] at hn
    exact absurd hn (active_not_archived hsafe hwf)

/-- What `open` queues first is a plan, if what took the place of archived files is archived. -/
theorem plan_gone (hwf : b.WF) (hsafe : Safe archive [] b) (hends : EndsOf ends b.closed)
    (hline : ArchiveLine ends (dirNames archive) M)
    (hgood : ∀ n ∈ archive.names, Replaced archive (b.files.map name) n) :
    ArchivePlan ends (removals archive b.files) (dirNames archive) M M := by
  refine plan_removals hline (archive.sorted_names.sublist List.filter_sublist) fun x hx => ?_
  obtain ⟨hxa, hxb⟩ := mem_gone.mp hx
  obtain ⟨f, hf, hfa, hsup⟩ := (hgood x (Dir.mem_names.mpr hxa)).resolve_left hxb
  obtain ⟨g, hg, rfl⟩ := closed_of_archived hsafe hwf hfa hf
  obtain ⟨-, hle, hlast⟩ := supersedes_iff.mp hsup
  refine ⟨g.name, hfa, fun hin => (mem_gone.mp hin).2 hf, g.first_name ▸ hle,
    (hends g hg).symm ▸ hlast, fun n hn hout => ?_⟩
  have hin : n ∈ b.files.map name := by
    by_contra hnot
    exact hout (mem_gone.mpr ⟨hn, hnot⟩)
  obtain ⟨h, hh, rfl⟩ := closed_of_archived hsafe hwf hn hin
  rw [hends g hg, hends h hh, g.first_name]
  have hrange := hwf.closed.of_mem hh
  rcases hwf.closed.eq_or_apart hg hh with rfl | hlt | hlt
  · exact Or.inr le_rfl
  · exact Or.inr (by omega)
  · exact Or.inl hlt

/-- What `open` queues is a plan that leads to the closed files. -/
theorem plan_start (hwf : b.WF) (hsafe : Safe archive [] b) (hends : EndsOf ends b.closed)
    (hline : ArchiveLine ends (dirNames archive) M)
    (hgood : ∀ n ∈ archive.names, Replaced archive (b.files.map name) n) :
    ArchivePlan ends (removals archive b.files ++ uploads archive b.closed) (dirNames archive) M
        (b.active.first - 1) ∧
      play ArchiverOp.act (removals archive b.files ++ uploads archive b.closed) (dirNames archive) =
        namesOf b.closed := by
  have hremovals := plan_gone hwf hsafe hends hline hgood
  have hplayed : play ArchiverOp.act (removals archive b.files) (dirNames archive) =
      {n ∈ dirNames archive | n ∉ gone archive b} := play_removeOps _ _
  -- What is left are closed files.
  have hleft : ∀ n, n ∈ play ArchiverOp.act (removals archive b.files) (dirNames archive) ↔
      n ∈ archive ∧ n ∈ namesOf b.closed := by
    intro n
    rw [hplayed]
    constructor
    · rintro ⟨hn, hout⟩
      refine ⟨hn, closed_of_archived hsafe hwf hn ?_⟩
      by_contra hnot
      exact hout (mem_gone.mpr ⟨hn, hnot⟩)
    · rintro ⟨hn, g, hg, rfl⟩
      refine ⟨hn, fun hin => (mem_gone.mp hin).2 ?_⟩
      exact List.mem_map.mpr ⟨g, List.mem_append_left _ hg, rfl⟩
  have htiled : Tiled 1 b.closed (b.active.first - 1 + 1) := by
    have hone := hwf.closed.le
    rw [Nat.sub_add_cancel hone]
    exact hwf.closed
  have hfinal := hremovals.final
  obtain ⟨fs₁, fs₂, hsplit, hrest, hin, hout⟩ := archived_first hfinal htiled hends
    (fun n hn _ => ((hleft n).mp hn).2) (by
      rcases Nat.eq_zero_or_pos M with rfl | hpos
      · exact Or.inl rfl
      · exact Or.inr (hfinal.start hpos))
  have huploads : uploads archive b.closed = uploadOps fs₂ := by
    have h1 : fs₁.filter (fun g => g.name ∉ archive) = [] :=
      List.filter_eq_nil_iff.mpr fun g hg => by simpa using ((hleft _).mp (hin g hg)).1
    have h2 : fs₂.filter (fun g => g.name ∉ archive) = fs₂ :=
      List.filter_eq_self.mpr fun g hg => by
        have hclosed : g ∈ b.closed := hsplit ▸ List.mem_append_right _ hg
        simpa using fun harch => hout g hg ((hleft _).mpr ⟨harch, mem_namesOf hclosed⟩)
    rw [uploads, hsplit, List.filter_append, h1, h2]
    rfl
  have hends₂ : EndsOf ends fs₂ := fun g hg => hends g (hsplit ▸ List.mem_append_right _ hg)
  refine ⟨hremovals.append (huploads ▸ plan_uploads hends₂ hfinal hrest), ?_⟩
  rw [play_append, huploads, play_uploadOps]
  ext n
  constructor
  · rintro (hn | ⟨g, hg, rfl⟩)
    · exact ((hleft n).mp hn).2
    · exact mem_namesOf (hsplit ▸ List.mem_append_right _ hg)
  · rintro ⟨g, hg, rfl⟩
    rw [hsplit] at hg
    rcases List.mem_append.mp hg with hg | hg
    · exact Or.inl (hin g hg)
    · exact Or.inr (mem_namesOf hg)

/-- The files of a log that has been opened, as blocks. -/
theorem stocked_opened {d : Dir} {l : FilesystemLog} (hwf : l.WF) (hdir : HoldsOnly d l.files)
    (hdisk : ∀ g ∈ l.files, g.OnDisk) (hends : EndsOf ends l.closed) :
    Stocked ends d fun n => n ≠ l.active.name := by
  intro n hn hne
  obtain ⟨g, hg, rfl⟩ := List.mem_map.mp ((hdir.mem_iff n).mp hn)
  have hclosed : g ∈ l.closed := by
    rcases List.mem_append.mp hg with hg | hg
    · exact hg
    · exact absurd (by rw [List.mem_singleton.mp hg]) hne
  have := hwf.closed.of_mem hclosed
  exact ⟨g, rfl, hdisk g hg, by omega, hdir.holds g hg, hends g hclosed⟩

end Start

theorem Kept.openEmpty (h : Kept M s) (hdown : s.status = .down ∅)
    (hempty : s.archive = ∅) {opts : Options} {log : DiskLog}
    (hopen : (DiskLog.openLog opts s.archiving s.archive ∅).2 = .ok log) :
    Kept M { s with status := .up { log := log } } := by
  obtain ⟨ends, hstock, hline, -⟩ := h.down hdown
  obtain ⟨log', hopen', hrefines, harch, hqueue, hdir⟩ := openLog_empty opts s.archiving
  rw [hempty, hopen'] at hopen
  cases hopen
  have hnone : ∀ n, n ∉ s.archive := fun n hn => by
    rw [hempty] at hn
    cases hn
  have hM : M = 0 := by
    by_contra hpos
    obtain ⟨n, hn, -⟩ := hline.start (Nat.pos_of_ne_zero hpos)
    exact hnone n hn
  subst hM
  have hpending : Process.pending { log := log } = [] := by simp [Process.pending, hqueue]
  refine ⟨h.1, emptyLog opts, emptyLog opts, ends, running_of_refines hrefines, ?_, harch.trans h.1,
    hstock, ?_, ?_, ?_, ?_, ?_, ?_⟩
  · rw [hpending]
    exact ⟨fun n hn => absurd hn (hnone n), fun op hop => absurd hop List.not_mem_nil⟩
  · intro n hn hne
    rw [show Process.log { log := log } = log from rfl, hdir] at hn
    exact absurd (((AList.mem_insert _).mp hn).resolve_right fun hin => by cases hin) hne
  · exact fun g hg => absurd hg List.not_mem_nil
  · exact fun g hg => absurd hg List.not_mem_nil
  · rw [hpending]
    exact ⟨rfl, hline⟩
  · rw [hpending]
    exact ⟨rfl, hline⟩
  · rw [hpending]
    show dirNames s.archive = _
    ext n
    refine iff_of_false (hnone n) ?_
    rintro ⟨g, hg, -⟩
    cases hg

theorem Kept.openLog (harchiving : s.archiving = true)
    {b : FilesystemLog} {ends : Nat → Nat} (hstock : Stocked ends s.archive fun _ => True)
    (hline : ArchiveLine ends (dirNames s.archive) M) (hrec : Recovers dir b)
    (hsafe : Safe s.archive [] b) (hends : EndsOf ends b.closed)
    (hgood : ∀ n ∈ s.archive.names, Replaced s.archive (keepFiles none dir.names) n)
    {opts : Options} {log : DiskLog}
    (hopen : (DiskLog.openLog opts s.archiving s.archive dir).2 = .ok log) :
    Kept M { s with status := .up { log := log } } := by
  obtain ⟨log', hopen', hrefines, harch, hqueue⟩ := opened hrec hsafe opts
  rw [hopen'] at hopen
  cases hopen
  rw [hrec.kept] at hgood
  obtain ⟨hplan, hfinal⟩ := plan_start hrec.wf hsafe hends hline hgood
  rw [if_pos harchiving] at hqueue
  have hpending : Process.pending { log := log } =
      removals s.archive b.files ++ uploads s.archive b.closed := by
    simp [Process.pending, hqueue]
  have hrunning := running_of_refines hrefines
  have hopened := safe_opened hsafe true
  refine ⟨harchiving, _, _, ends, hrunning, ?_, harch.trans harchiving, hstock, ?_, hends, hends, ?_,
    ?_, ?_⟩
  · rw [hpending]
    exact ⟨hopened.archived, hopened.queued⟩
  · exact stocked_opened hrefines.wf hrefines.dir hrunning.disk hends
  · rw [hpending]
    exact hplan
  · rw [hpending]
    exact ⟨rfl, hplan.final⟩
  · rw [hpending]
    show play _ (_ ++ []) _ = _
    rw [List.append_nil]
    exact hfinal

/-- Steps while no process runs. -/
theorem Kept.step_down (h : Kept M s) (hdown : s.status = .down dir) (hgood : s.GoodStart a)
    (hstep : s.step a = some s') : Kept M s' := by
  obtain ⟨ends, hstock, hline, hcases⟩ := h.down hdown
  rcases hcases with ⟨rfl, hempty⟩ | hdead | ⟨b, hrec, hsafe, hends⟩
  · rcases step_empty hdown hempty hstep with ⟨opts, log, rfl, hopen, rfl, -⟩ |
      ⟨dir', rfl, hdir'⟩
    · exact h.openEmpty hdown hempty hopen
    · refine ⟨h.1, ends, hstock, hline, ?_⟩
      rcases hdir' with rfl | hdead | hrec
      · exact Or.inl ⟨rfl, hempty⟩
      · exact Or.inr (Or.inl hdead)
      · exact Or.inr (Or.inr ⟨_, hrec, safe_empty hempty _,
          fun g hg => absurd hg List.not_mem_nil⟩)
  · obtain ⟨dir', rfl, hdead'⟩ := step_dead hdown hdead hstep
    exact ⟨h.1, ends, hstock, hline, Or.inr (Or.inl hdead')⟩
  · rcases step_left hdown hrec hsafe hstep with ⟨opts, log, rfl, hopen, rfl, -⟩ |
      ⟨dir', rfl, hrec'⟩
    · refine Kept.openLog h.1 hstock hline hrec hsafe hends ?_ hopen
      refine hgood opts rfl dir (by rw [downDir, hdown]; rfl) ?_
      rw [hopen]
      rfl
    · exact ⟨h.1, ends, hstock, hline, Or.inr (Or.inr ⟨b, hrec', hsafe, hends⟩)⟩

/-- Every step with a good start keeps what is covered. -/
theorem Kept.step (h : Kept M s) (hgood : s.GoodStart a)
    (hstep : s.step a = some s') : ∃ M', M ≤ M' ∧ Kept M' s' := by
  cases hstatus : s.status with
  | down dir => exact ⟨M, le_rfl, h.step_down hstatus hgood hstep⟩
  | up p => exact h.step_up hstatus hstep

/-! ## Starts that lose revisions -/

/-- The archiver's steps. -/
def Archiver (a : Action) : Prop := a = .take ∨ a = .carryOut

theorem Archiver.good (h : Archiver a) (s : LogSystem) : s.GoodStart a := by
  intro opts hopts
  rcases h with rfl | rfl <;> cases hopts

/-- The archiver carries out the removals at the head of the queue. -/
theorem run_removals (archiving : Bool) {rest : List ArchiverOp} (ns : List FileName) :
    ∀ (archive : Dir) (p : Process), p.current = none → p.log.queue = removeOps ns ++ rest →
      ∃ as u, (∀ a ∈ as, Archiver a) ∧ run ⟨archiving, archive, .up p⟩ as = some u ∧
        u.archive = Dir.removeAll archive ns := by
  induction ns with
  | nil =>
    intro archive p _ _
    exact ⟨[], _, fun a ha => absurd ha List.not_mem_nil, rfl, rfl⟩
  | cons n ns ih =>
    intro archive p hcurrent hqueue
    have htake : step ⟨archiving, archive, .up p⟩ .take = some ⟨archiving, archive, .up
        { p with
          log := { p.log with queue := removeOps ns ++ rest }
          current := some { name := n, remove := true } }⟩ := by
      show Option.map _ p.take = _
      have hqueue' : p.log.queue = { name := n, remove := true } :: (removeOps ns ++ rest) := hqueue
      simp [Process.take, hcurrent, hqueue']
    obtain ⟨as, u, has, hrun, hu⟩ := ih (archive.erase n)
      { p with log := { p.log with queue := removeOps ns ++ rest }, current := none } rfl rfl
    refine ⟨.take :: .carryOut :: as, u, fun a ha => ?_, ?_, hu⟩
    · rcases List.mem_cons.mp ha with rfl | ha
      · exact Or.inl rfl
      · rcases List.mem_cons.mp ha with rfl | ha
        · exact Or.inr rfl
        · exact has a ha
    · exact run_cons_eq_some.mpr ⟨_, htake,
        run_cons_eq_some.mpr ⟨_, rfl, hrun⟩⟩

/-- After a start that is not good, the archiver can reach a state in which a revision is no longer
covered. -/
theorem lost_of_bad_start (h : Kept M s) (hstep : s.step a = some s') (hbad : ¬ s.GoodStart a) :
    ∃ as u N, (∀ a ∈ as, Archiver a) ∧ run s' as = some u ∧ Covers s.archive N ∧
      ¬ Covers u.archive N := by
  unfold GoodStart at hbad
  push Not at hbad
  obtain ⟨opts, hopts, dir, hdir, hok, x, hx, hnot⟩ := hbad
  obtain rfl : a = .start opts := by
    cases a with
    | start o => cases hopts; rfl
    | _ => cases hopts
  have hdown : s.status = .down dir := by
    unfold downDir at hdir
    split at hdir
    · next heq =>
      cases hdir
      exact heq
    · cases hdir
  have hxa := Dir.mem_names.mp hx
  obtain ⟨ends, hstock, hline, ⟨-, hempty⟩ | hdead | ⟨b, hrec, hsafe, hends⟩⟩ := h.down hdown
  · rw [hempty] at hxa
    cases hxa
  · obtain ⟨dir', e, hopen, -⟩ := hdead.openLog opts s.archiving s.archive
    rw [hopen] at hok
    cases hok
  obtain ⟨log, hopen, hrefines, harch, hqueue⟩ := opened hrec hsafe opts
  rw [if_pos h.1] at hqueue
  obtain rfl : s' = { s with status := .up { log := log } } := by
    unfold step at hstep
    rw [hdown] at hstep
    simp only [hopen, Option.some.injEq] at hstep
    exact hstep.symm
  obtain ⟨as, u, has, hrun, hu⟩ := run_removals s.archiving (gone s.archive b) s.archive
    { log := log } rfl hqueue
  rw [hrec.kept] at hnot
  have hxb : x ∉ b.files.map name := fun hin => hnot (Or.inl hin)
  have hrange := hline.bounds x hxa
  refine ⟨as, u, x.first, has, hrun, (covers_iff hstock hline _).mpr (by omega), fun hcovers => ?_⟩
  -- A file that still covers the revision is a closed one, hence the one that supersedes `x`.
  obtain ⟨n, hn, hle, hlast⟩ := hcovers x.first hrange.1 le_rfl
  rw [hu] at hn hlast
  obtain ⟨hna, hout⟩ := Dir.mem_removeAll.mp hn
  rw [Dir.lookup_removeAll, if_neg hout, fileLast_eq hstock hna] at hlast
  obtain ⟨g, hg, rfl⟩ := closed_of_archived hsafe hrec.wf hna (by
    by_contra hnb
    exact hout (mem_gone.mpr ⟨hna, hnb⟩))
  obtain ⟨f, hf, hname | hsup⟩ := hsafe.archived x hxa
  · exact hxb (List.mem_map.mpr ⟨f, List.mem_append_left _ hf, hname⟩)
  · obtain ⟨-, hfle, hflast⟩ := supersedes_iff.mp hsup
    rw [g.first_name] at hle
    rw [hends g hg] at hlast
    have hsame : f = g := by
      rcases hrec.wf.closed.eq_or_apart hf hg with heq | hlt | hlt
      · exact heq
      · omega
      · omega
    subst hsame
    exact hnot (Or.inr ⟨f.name, List.mem_map.mpr ⟨f, List.mem_append_left _ hf, rfl⟩, hna, hsup⟩)

/-! ## Runs -/

/-- At any moment of the run, and however far the archiver gets from there, the archive covers what it
has covered before, and can be restored. -/
def Lossless (as : List Action) : Prop :=
  ∀ as₁ as₂ bs t u, as₁ ++ as₂ <+: as → (∀ b ∈ bs, Archiver b) → run (init true) as₁ = some t →
    run t (as₂ ++ bs) = some u → ∀ N, Covers t.archive N →
      Covers u.archive N ∧ Restores u.archive N

/-- The archive loses nothing in a run exactly if every start finds archived what has taken the place of
archived files. -/
theorem archive_lossless_iff {as : List Action} {s : LogSystem}
    (hrun : run (init true) as = some s) :
    Lossless as ↔ Transition.Each step GoodStart (init true) as := by
  constructor
  · intro hall
    refine each_of_first (K := fun s => ∃ M, Kept M s) hrun ⟨0, kept_init⟩ ?_ ?_
    · rintro s a s' ⟨M, hkept⟩ hgood hstep
      obtain ⟨M', -, hkept'⟩ := hkept.step hgood hstep
      exact ⟨M', hkept'⟩
    · rintro before a t u hpre ht ⟨M, hkept⟩ hstep
      by_contra hbad
      obtain ⟨bs, v, N, hbs, hv, hcovers, hlost⟩ := lost_of_bad_start hkept hstep hbad
      refine hlost (hall before [a] bs t v hpre hbs ht ?_ N hcovers).1
      exact run_cons_eq_some.mpr ⟨u, hstep, hv⟩
  · intro heach as₁ as₂ bs t u hpre hbs ht hu N hcovers
    obtain ⟨as₃, rfl⟩ := hpre
    have hgood := heach.left
    obtain ⟨M, hkept⟩ := run_invariant_each (K := fun s => ∃ M, Kept M s)
      (fun s a s' ⟨M, hkept⟩ hgood hstep => by
        obtain ⟨M', -, hkept'⟩ := hkept.step hgood hstep
        exact ⟨M', hkept'⟩) ht hgood.left ⟨0, kept_init⟩
    have hM := (hkept.covers_iff N).mp hcovers
    -- What the archive covers at `t`, it goes on covering.
    obtain ⟨v, hv, hend⟩ := run_append.mp hu
    have hlater := (hgood.right ht).append hv fun before a w hin _ => by
      have hmem : a ∈ bs := hin.subset (List.mem_append_right _ (List.mem_singleton_self a))
      exact (hbs a hmem).good w
    obtain ⟨M', hle, hkept'⟩ := run_invariant_each
      (K := fun s => ∃ M', M ≤ M' ∧ Kept M' s)
      (fun s a s' ⟨M', hle, hkept⟩ hgood hstep => by
        obtain ⟨M'', hle', hkept'⟩ := hkept.step hgood hstep
        exact ⟨M'', hle.trans hle', hkept'⟩) hu hlater ⟨M, le_rfl, hkept⟩
    exact ⟨(hkept'.covers_iff N).mpr (by omega), hkept'.restores (by omega)⟩

/-- Two archived files are merged, and the process dies before it has queued the new file. -/
def mergedUnarchived : List Action :=
  twoFiles ++ archiveOne ++ archiveOne ++ mergeTwo ++ List.replicate 2 (.compactStep allLive) ++
    [.crash {}]

/-- A restart, and one more file. -/
def restartedThird : List Action :=
  [.crash {}, .start ⟨0, 0⟩, .commit 2 [putKey 99], .tick] ++ archiveOne

/-- A merge whose new file is archived before the process dies. -/
theorem archive_lossless_merged : Lossless (mergedAndArchived ++ restartedThird) := by
  have hsome : (run (init true) (mergedAndArchived ++ restartedThird)).isSome = true := by
    decide +kernel
  obtain ⟨s, hs⟩ := Option.isSome_iff_exists.mp hsome
  exact (archive_lossless_iff hs).mpr (by decide +kernel)

/-- The next process removes the two files from the archive before it uploads the one that covers
them. -/
theorem archive_loses_merged : ∃ s u, run (init true) mergedUnarchived = some s ∧
    run s ([.start ⟨0, 0⟩] ++ archiveOne) = some u ∧ Covers s.archive 1 ∧ ¬ Covers u.archive 1 ∧
      ¬ Restores u.archive 1 := by
  obtain ⟨s, hs, hcovered⟩ : ∃ s, run (init true) mergedUnarchived = some s ∧ Covered s.archive 1 := by
    decide +kernel
  obtain ⟨u, hu, hlost, hfails⟩ :
      ∃ u, run (init true) (mergedUnarchived ++ ([.start ⟨0, 0⟩] ++ archiveOne)) = some u ∧
        ¬ Covered u.archive 1 ∧ (DiskLog.openLog ⟨0, 0⟩ true u.archive ∅).2.isOk = false := by
    decide +kernel
  obtain ⟨t, ht, hu'⟩ := run_append.mp hu
  obtain rfl := Option.some.inj (hs.symm.trans ht)
  refine ⟨s, u, hs, hu', fun r h1 hr => ?_, fun hcovers => ?_, fun hrestores => ?_⟩
  · obtain rfl : r = 1 := by omega
    exact hcovered
  · exact hlost (hcovers 1 le_rfl le_rfl)
  · obtain ⟨log, hopen, -⟩ := hrestores ⟨0, 0⟩
    rw [hopen] at hfails
    cases hfails

end LogSystem

end CloudEtcd
