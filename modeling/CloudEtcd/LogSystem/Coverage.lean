/-
# CloudEtcd.LogSystem.Coverage — the archive keeps what it has covered.

While a process runs, the operations that are queued, and those that a compaction has still to queue,
are a plan: carried out in order they keep the archive a line of blocks whose end never moves back, and
they lead to the closed files of the log (`Planned`).  A crash drops the plan.  The next `open` queues
first the removal of every archived file that the directory no longer has, and then the uploads.  That
is a plan again only if the files that took their place are archived already (`GoodStart`); otherwise
the archive loses revisions while the removals are carried out.
-/
import CloudEtcd.LogSystem.ArchivePlan

namespace CloudEtcd

open LogCodec Blocks FilesystemLog

/-! ## Ends of dense files -/

/-- The end of one more dense file is recorded. -/
def withEnd (ends : Nat → Nat) (first last : Nat) : Nat → Nat := Function.update ends first last

variable {n : FileName}

theorem last_withEnd_of_ne {first : Nat} (h : n ≠ .dense first) (ends : Nat → Nat)
    (last : Nat) : n.last (withEnd ends first last) = n.last ends := by
  cases n with
  | sparse a b => rfl
  | dense a =>
    have hne : a ≠ first := fun heq => h (by rw [heq])
    simp [FileName.last, withEnd, hne]

theorem last_withEnd_self (ends : Nat → Nat) (first last : Nat) :
    (FileName.dense first).last (withEnd ends first last) = last := by
  simp [FileName.last, withEnd]

variable {ends : Nat → Nat} {d : Dir} {P : FileName → Prop}

theorem Stocked.congr {ends' : Nat → Nat} {Q : FileName → Prop} (h : Stocked ends d P)
    (hQ : ∀ n ∈ d, Q n → P n ∧ n.last ends' = n.last ends) : Stocked ends' d Q := by
  intro n hn hq
  obtain ⟨hp, heq⟩ := hQ n hn hq
  obtain ⟨g, hname, hdisk, hle, hdata, hlast⟩ := h n hn hp
  exact ⟨g, hname, hdisk, hle, hdata, heq.trans hlast⟩

/-- A file is written. -/
theorem Stocked.insert {g : LogFile} (h : Stocked ends d P) (hdisk : g.OnDisk)
    (hle : g.first ≤ g.last) (hlast : g.name.last ends = g.last) :
    Stocked ends (d.insert g.name (encodeFile g.records)) P := by
  intro n hn hp
  by_cases heq : n = g.name
  · subst heq
    exact ⟨g, rfl, hdisk, hle, AList.lookup_insert _, hlast⟩
  · rw [AList.lookup_insert_ne heq]
    exact h n (((AList.mem_insert _).mp hn).resolve_left heq) hp

theorem Stocked.erase (h : Stocked ends d P) (n : FileName) : Stocked ends (d.erase n) P := by
  intro m hm hp
  obtain ⟨hne, hm⟩ := AList.mem_erase.mp hm
  rw [AList.lookup_erase_ne hne]
  exact h m hm hp

/-- The new file of a group is compacted, so its name has its end. -/
theorem EndsOf.compacts {b b' : FilesystemLog} (h : EndsOf ends b.closed)
    (hb : Compacts b b') : EndsOf ends b'.closed := by
  rcases hb with rfl | ⟨pre, group, rest, kept, hwf, hclosed, hne, hsub, rfl⟩
  · exact h
  · intro g hg
    rw [(compactGroup_spec hwf hclosed hne hsub).1] at hg
    rcases List.mem_append.mp hg with hg | hg
    · exact h g (by rw [hclosed]; simp [hg])
    · rcases List.mem_cons.mp hg with rfl | hg
      · exact last_sparse rfl ends
      · exact h g (by rw [hclosed]; simp [hg])

theorem onDisk_newFile {l : FilesystemLog} {pre group rest : List LogFile}
    {kept : List (Nat × LogRecord)} (hwf : l.WF) (hdisk : ∀ g ∈ l.files, g.OnDisk)
    (hclosed : l.closed = pre ++ group ++ rest) (hne : group ≠ [])
    (hsub : kept.Sublist (group.flatMap LogFile.records)) :
    (compactedFile group kept).OnDisk ∧
      (compactedFile group kept).first ≤
        (compactedFile group kept).last := by
  obtain ⟨a, b, -, hgroup, -⟩ := hwf.split hclosed
  refine ⟨onDisk_compactedFile hgroup hne hsub fun g hg => hdisk g ?_,
    (tiled_compactedFile hgroup hne hsub).2.1⟩
  exact List.mem_append_left _ (by rw [hclosed]; simp [hg])

/-! ## The plan of a running process -/

/-- The operations that are still to come are a plan, and lead to the closed files. -/
structure Planned (archive : Dir) (p : Process) (l b : FilesystemLog) (ends : Nat → Nat)
    (M : Nat) : Prop where
  vault : Stocked ends archive fun _ => True
  shelf : Stocked ends p.log.dir fun n => n ≠ l.active.name
  index : EndsOf ends l.closed
  back : EndsOf ends b.closed
  plan : ArchivePlan ends p.pending (dirNames archive) M (l.active.first - 1)
  rest : ArchivePlan ends p.ops (play ArchiverOp.act p.pending (dirNames archive))
    (l.active.first - 1) (l.active.first - 1)
  final : play ArchiverOp.act (p.pending ++ p.ops) (dirNames archive) = namesOf l.closed

/-- The operations of a compaction are about closed files. -/
theorem Running.ops_ne {p : Process} {l b : FilesystemLog} (h : Running p l b) :
    ∀ op ∈ p.ops, op.name ≠ l.active.name := by
  intro op hop heq
  unfold Process.ops at hop
  split at hop
  · next names ops todo hjob =>
    have hok := h.job
    rw [hjob] at hok
    cases hok with
    | @replacing _ _ _ pre lgroup rest gs kept hclosed hdir hsuffix _ =>
      have hlow : op.name.first < l.active.first := by
        have hmem := hsuffix.subset hop
        rw [groupOps] at hmem
        rcases List.mem_cons.mp hmem with rfl | hmem
        · obtain ⟨g, hg, hfirst⟩ := hdir.first_new
          show (compactedFile lgroup kept).name.first < _
          rw [hfirst]
          exact hdir.group_low g hg
        · obtain ⟨n, hn, rfl⟩ := List.mem_map.mp hmem
          obtain ⟨⟨g, hg, rfl⟩, -⟩ := mem_replacedNames.mp hn
          show g.name.first < _
          rw [g.first_name]
          exact hdir.group_low g hg
      rw [heq, l.active.first_name] at hlow
      exact lt_irrefl _ hlow
  · cases hop

theorem ArchiverOp.act_insert {op : ArchiverOp} (h : op.name ≠ n)
    (S : Set FileName) : op.act (insert n S) = insert n (op.act S) := by
  unfold ArchiverOp.act
  split
  · rw [Set.insert_sdiff_of_notMem _ (fun hin => h (Set.mem_singleton_iff.mp hin).symm)]
  · exact Set.insert_comm _ _ _

theorem ArchiverOp.act_subset {op : ArchiverOp} {T : Set FileName}
    (h : op.remove = false → op.name ∈ T) {S : Set FileName} (hS : S ⊆ T) : op.act S ⊆ T := by
  unfold ArchiverOp.act
  split
  · exact fun n hn => hS hn.1
  · next hremove =>
    rintro n (rfl | hn)
    · exact h (by simpa using hremove)
    · exact hS hn

namespace Planned

variable {archive : Dir} {p p' : Process} {l b l' b' : FilesystemLog} {ends : Nat → Nat} {M : Nat}

/-- Moves that leave the queue and the closed files alone. -/
theorem same (h : Planned archive p l b ends M) (hclosed : l'.closed = l.closed)
    (hfirst : l'.active.first = l.active.first) (hshelf : Stocked ends p'.log.dir
      fun n => n ≠ l'.active.name) (hback : EndsOf ends b'.closed)
    (hpending : p'.pending = p.pending) (hops : p'.ops = p.ops) :
    Planned archive p' l' b' ends M := by
  refine ⟨h.vault, hshelf, hclosed ▸ h.index, hback, ?_, ?_, ?_⟩
  · rw [hpending, hfirst]
    exact h.plan
  · rw [hpending, hops, hfirst]
    exact h.rest
  · rw [hpending, hops, hclosed]
    exact h.final

/-- The active file is closed and its upload queued. -/
theorem rotate (h : Planned archive p l b ends M) (hrunning : Running p l b)
    (hsafe : Safe archive p.pending b) (hne : l.active.records ≠ [])
    (hdir : p'.log.dir = p.log.dir.insert l.freshName header)
    (hpending : p'.pending = p.pending ++ [{ name := l.active.name }]) (hops : p'.ops = p.ops) :
    ∃ ends', Planned archive p' l.rotate b.rotate ends' M := by
  have hactive := hrunning.job.frame.1
  have hname : l.active.name = .dense l.active.first := by
    simp [LogFile.name, hrunning.wf.dense]
  have hend : l.active.last + 1 = l.active.first + l.active.records.length :=
    (hrunning.wf.active.dense hrunning.wf.dense).2
  have hlen : 0 < l.active.records.length := List.length_pos_of_ne_nil hne
  have hlast := hrunning.wf.last
  have hone := hrunning.wf.closed.le
  set ends' := withEnd ends l.active.first l.active.last with hends'
  -- The file was neither archived nor to be uploaded, so no block has changed.
  have hsame : ∀ n, n ≠ l.active.name → n.last ends' = n.last ends := fun n hn =>
    last_withEnd_of_ne (hname ▸ hn) ends _
  have hself : l.active.name.last ends' = l.active.last := by
    rw [hname]
    exact last_withEnd_self _ _ _
  have hclosedName : ∀ g ∈ l.closed, g.name ≠ l.active.name := fun g hg =>
    hrunning.wf.closed_name_ne hg
  have hbackName : ∀ g ∈ b.closed, g.name ≠ l.active.name := fun g hg => by
    rw [← hactive]
    exact hrunning.recovers.wf.closed_name_ne hg
  have hnot : l.active.name ∉ archive := by
    rw [← hactive]
    exact LogSystem.active_not_archived hsafe hrunning.recovers.wf
  have hqueued : ∀ op ∈ p.pending, op.remove = false → op.name ≠ l.active.name := by
    intro op hop hup heq
    have := (hsafe.queued op hop hup).first_lt hrunning.recovers.wf
    rw [hactive, heq, l.active.first_name] at this
    exact lt_irrefl _ this
  have hrotate := rotate_eq hne
  have hrotateB : b.rotate.closed = b.closed ++ [b.active] := by rw [rotate_eq (hactive ▸ hne)]
  have hnewFirst : l.rotate.active.first - 1 = l.active.last := by
    rw [hrotate]
    show l.lastRevision + 1 - 1 = _
    omega
  have hplan' : ArchivePlan ends' p.pending (dirNames archive) M (l.active.first - 1) := by
    refine h.plan.congr {n | n ≠ l.active.name} (fun n hn => (hsame n hn).symm)
      (fun op hop S hS => ArchiverOp.act_subset (fun hup => hqueued op hop hup) hS) ?_
    exact fun n hn heq => hnot (heq ▸ hn)
  have hplayed : play ArchiverOp.act p.pending (dirNames archive) ⊆ {n | n ≠ l.active.name} :=
    List.foldlRecOn (motive := fun S => S ⊆ {n | n ≠ l.active.name}) p.pending _
      (fun n hn heq => hnot (heq ▸ hn)) fun S hS op hop =>
      ArchiverOp.act_subset (fun hup => hqueued op hop hup) hS
  have hrest' : ArchivePlan ends' p.ops (play ArchiverOp.act p.pending (dirNames archive))
      (l.active.first - 1) (l.active.first - 1) :=
    h.rest.congr {n | n ≠ l.active.name} (fun n hn => (hsame n hn).symm)
      (fun op hop S hS => ArchiverOp.act_subset (fun _ => hrunning.ops_ne op hop) hS) hplayed
  have hact : ∀ op ∈ p.ops, ∀ S, op.act (insert l.active.name S) =
      insert l.active.name (op.act S) := fun op hop S =>
    ArchiverOp.act_insert (hrunning.ops_ne op hop) S
  have hfirst : l.active.name.first = l.active.first - 1 + 1 := by
    rw [l.active.first_name]
    omega
  have hle : l.active.name.first ≤ l.active.name.last ends' := by
    rw [l.active.first_name, hself]
    omega
  have hupload : play ArchiverOp.act (p.pending ++ [{ name := l.active.name }])
      (dirNames archive) = insert l.active.name (play ArchiverOp.act p.pending (dirNames archive)) := by
    rw [play_append]
    rfl
  have hrestEnd := hrest'.add_end hfirst hle hact
  rw [hself] at hrestEnd
  refine ⟨ends', ?_, ?_, ?_, ?_, ?_, ?_, ?_⟩
  · exact h.vault.congr fun n hn _ => ⟨trivial, hsame n fun heq => hnot (heq ▸ hn)⟩
  · -- The old active file takes its place among the closed ones.
    rw [hdir]
    intro n hn hne'
    have hfresh : n ≠ l.freshName := by
      rw [hrotate] at hne'
      exact hne'
    have hn' := ((AList.mem_insert _).mp hn).resolve_left hfresh
    rw [AList.lookup_insert_ne hfresh]
    by_cases heq : n = l.active.name
    · subst heq
      exact ⟨l.active, rfl, hrunning.disk _ (List.mem_append_right _ (List.mem_singleton_self _)),
        by omega, hrunning.job.active, hself⟩
    · obtain ⟨g, hgn, hdisk, hle, hdata, hglast⟩ := h.shelf n hn' heq
      exact ⟨g, hgn, hdisk, hle, hdata, (hsame n heq).trans hglast⟩
  · intro g hg
    rw [hrotate] at hg
    rcases List.mem_append.mp hg with hg | hg
    · exact (hsame _ (hclosedName g hg)).trans (h.index g hg)
    · rw [List.mem_singleton.mp hg]
      exact hself
  · intro g hg
    rw [hrotateB] at hg
    rcases List.mem_append.mp hg with hg | hg
    · exact (hsame _ (hbackName g hg)).trans (h.back g hg)
    · rw [List.mem_singleton.mp hg, hactive]
      exact hself
  · rw [hpending, hnewFirst]
    refine hplan'.append ⟨hplan'.final, l.active.last, by omega, rfl, ?_⟩
    exact hrestEnd.line
  · rw [hpending, hops, hnewFirst, hupload]
    exact hrestEnd
  · rw [hpending, hops, play_append, hupload, play_insert hact, ← play_append, h.final, hrotate]
    ext n
    constructor
    · rintro (rfl | ⟨g, hg, rfl⟩)
      · exact mem_namesOf (List.mem_append_right _ (List.mem_singleton_self _))
      · exact mem_namesOf (List.mem_append_left _ hg)
    · rintro ⟨g, hg, rfl⟩
      rcases List.mem_append.mp hg with hg | hg
      · exact Or.inr (mem_namesOf hg)
      · rw [List.mem_singleton.mp hg]
        exact Or.inl rfl

/-- Every effect keeps the plan. -/
theorem effect (h : Planned archive p l b ends M) (hrunning : Running p l b)
    (hsafe : Safe archive p.pending b) (harch : p.log.archiving = true) {t : Touch}
    (heffect : StepEffect p l b t p' l' b') : ∃ ends', Planned archive p' l' b' ends' M := by
  cases heffect with
  | stay hdir hpending hops =>
    exact ⟨ends, h.same rfl rfl (hdir ▸ h.shelf) h.back hpending hops⟩
  | append batch _ hdir hpending hops =>
    refine ⟨ends, h.same rfl rfl ?_ h.back hpending hops⟩
    rw [hdir, name_published hrunning.wf]
    intro n hn hne
    rw [DiskLog.appendTo, AList.lookup_insert_ne hne]
    exact h.shelf n (((AList.mem_insert _).mp hn).resolve_left hne) hne
  | rotate hne hdir hpending hops =>
    rw [harch] at hpending
    exact h.rotate hrunning hsafe hne hdir hpending hops
  | rename hb hclosed hne hsub hdir hpending hops hb' =>
    refine ⟨ends, h.same rfl rfl ?_ (h.back.compacts hb') hpending hops⟩
    rw [hdir]
    obtain ⟨hdisk, hle⟩ := onDisk_newFile hrunning.wf hrunning.disk hclosed hne hsub
    exact h.shelf.insert hdisk hle (last_sparse rfl ends)
  | @swap _ pre group rest kept hclosed hne hsub hdir hpending hold hops =>
    have hN : l.active.first = l.active.first - 1 + 1 := by
      have := hrunning.wf.closed.le
      omega
    obtain ⟨hplan, hplay⟩ := plan_groupOps hrunning.wf hN hclosed hne hsub h.index
    have hfinal := h.final
    rw [hold, List.append_nil] at hfinal
    refine ⟨ends, h.vault, hdir ▸ h.shelf, ?_, h.back, ?_, ?_, ?_⟩
    · exact h.index.compacts (Or.inr ⟨pre, group, rest, kept, hrunning.wf, hclosed, hne, hsub,
        rfl⟩)
    · rw [hpending]
      exact h.plan
    · rw [hpending, hops, hfinal]
      exact hplan
    · rw [hpending, hops, play_append, hfinal]
      exact hplay
  | removal hdir hpending hops hb' =>
    refine ⟨ends, h.same rfl rfl ?_ (h.back.compacts hb') hpending hops⟩
    rw [hdir]
    exact h.shelf.erase _
  | @enqueue _ op hb hops hdir hpending _ =>
    rw [harch] at hpending
    have hrest := h.rest
    rw [hops] at hrest
    obtain ⟨hone, htail⟩ := hrest.head
    refine ⟨ends, h.vault, hdir ▸ h.shelf, h.index, h.back, ?_, ?_, ?_⟩
    · rw [hpending]
      exact h.plan.append hone
    · rw [hpending, play_append]
      exact htail
    · have hfinal := h.final
      rw [hops] at hfinal
      rw [hpending, List.append_assoc]
      exact hfinal

end Planned

/-! ## Coverage and restoring -/

/-- The last revision that an archived file covers. -/
def fileLast (n : FileName) (data : Bytes) : Nat :=
  match n with
  | .sparse _ b => b
  | .dense a =>
    match scan data with
    | .ok s => a + s.spans.length - 1
    | .error _ => 0

/-- An archived file covers the revision. -/
def Covered (archive : Dir) (r : Nat) : Prop :=
  ∃ n ∈ archive.keys, n.first ≤ r ∧ r ≤ fileLast n ((archive.lookup n).getD [])

instance (archive : Dir) (r : Nat) : Decidable (Covered archive r) :=
  inferInstanceAs (Decidable (∃ n ∈ archive.keys, _))

/-- The archived files cover the revisions up to `N`. -/
def Covers (archive : Dir) (N : Nat) : Prop := ∀ r, 1 ≤ r → r ≤ N → Covered archive r

/-- An empty directory can be restored from the archive and then reaches `N`. -/
def Restores (archive : Dir) (N : Nat) : Prop :=
  ∀ opts, ∃ log, (DiskLog.openLog opts true archive ∅).2 = .ok log ∧ N ≤ log.lastRevision

theorem fileLast_eq (h : Stocked ends d fun _ => True) (hn : n ∈ d) :
    fileLast n ((d.lookup n).getD []) = n.last ends := by
  obtain ⟨g, hname, hdisk, hle, hdata, hlast⟩ := h n hn trivial
  cases n with
  | sparse a b => rfl
  | dense a =>
    have hdense : g.sparse = false := by
      rw [← LogFile.isDense_iff, hname]
      rfl
    have hfirst : g.first = a := by
      rw [← g.first_name, hname]
      rfl
    have hend : g.last + 1 = g.first + g.records.length := (hdisk.wf.dense hdense).2
    have hscan := scan_encodeFile hdisk.storable tornTail_nil
    rw [List.append_nil] at hscan
    rw [hdata, hlast]
    simp only [Option.getD_some, fileLast, hscan, length_spansFrom]
    omega

theorem covered_iff (h : Stocked ends d fun _ => True) (r : Nat) :
    Covered d r ↔ ∃ n ∈ d, n.first ≤ r ∧ r ≤ n.last ends := by
  constructor
  · rintro ⟨n, hn, hle, hlast⟩
    exact ⟨n, hn, hle, fileLast_eq h hn ▸ hlast⟩
  · rintro ⟨n, hn, hle, hlast⟩
    exact ⟨n, hn, hle, (fileLast_eq h hn).symm ▸ hlast⟩

/-- A line covers what lies before its end, and no more. -/
theorem covers_iff {archive : Dir} {M : Nat} (hstock : Stocked ends archive fun _ => True)
    (hline : ArchiveLine ends (dirNames archive) M) (N : Nat) : Covers archive N ↔ N ≤ M := by
  constructor
  · intro h
    rcases Nat.eq_zero_or_pos N with rfl | hpos
    · exact Nat.zero_le _
    · obtain ⟨n, hn, -, hlast⟩ := (covered_iff hstock N).mp (h N hpos le_rfl)
      exact hlast.trans (hline.bounds n hn).2.2
  · intro hle r h1 hr
    obtain ⟨n, hn, hcover⟩ := hline.covers h1 (hr.trans hle)
    exact (covered_iff hstock r).mpr ⟨n, hn, hcover⟩

theorem restores_of_line {archive : Dir} {M N : Nat} (hstock : Stocked ends archive fun _ => True)
    (hline : ArchiveLine ends (dirNames archive) M) (hN : N ≤ M) : Restores archive N := by
  intro opts
  obtain ⟨fs, hfs⟩ := archived_of_line hline hstock
  obtain ⟨log, hopen, hrefines⟩ := hfs.restore opts
  refine ⟨log, by rw [hopen], ?_⟩
  rw [hrefines.index.lastRevision]
  exact hN

end CloudEtcd
