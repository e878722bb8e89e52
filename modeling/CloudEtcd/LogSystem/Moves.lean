/-
# CloudEtcd.LogSystem.Moves — what a running process does.

`Running p l b` relates a process to the log `l` of its index and to the log `b` that it would leave
behind.  `StepEffect` lists what one move of a process can do to the directory, to the operations that
are to be carried out and to the two logs.  Each move of the process is one of these, and keeps
`Running`; the invariants of the whole system are read off that list.
-/
import CloudEtcd.LogSystem.Phases

namespace CloudEtcd

open LogFile DiskLog
open List (mem_append mem_cons_self length_append flatMap_cons append_assoc mem_append_left mem_cons
  mem_map)

variable {g : LogFile}

open LogCodec

/-! ## A running process -/

/-- The operations that a compaction has still to queue. -/
def Process.ops (p : Process) : List ArchiverOp :=
  match p.job with
  | some (.replacing _ ops _) => ops
  | _ => []

/-- The process has the log `l` open, and would leave behind the log `b`. -/
structure Running (p : Process) (l b : FilesystemLog) : Prop where
  index : Indexes p.log l
  wf : l.WF
  job : JobOK p.log.dir l p.job b

/-- A group of files was replaced, or nothing happened. -/
def Compacts (b b' : FilesystemLog) : Prop :=
  b' = b ∨ ∃ pre group rest kept, b.WF ∧ b.closed = pre ++ group ++ rest ∧ group ≠ [] ∧
    kept.Sublist (group.flatMap records) ∧ b' = b.compactGroup group kept

/-- What a move does to the files and the queue, beside commits and rotations. -/
inductive Touch where
  | nothing
  /-- A new file is renamed into place. -/
  | renames (name : FileName) (data : Bytes)
  /-- A replaced file is removed. -/
  | removes (name : FileName)
  /-- A compaction queues an operation. -/
  | queues (op : ArchiverOp)
  deriving DecidableEq

variable {t : Touch}

/-- What one move of a process does. -/
inductive StepEffect (p : Process) (l b : FilesystemLog) :
    Touch → Process → FilesystemLog → FilesystemLog → Prop
  | stay {p' : Process} (hdir : p'.log.dir = p.log.dir) (hpending : p'.pending = p.pending)
      (hops : p'.ops = p.ops) : StepEffect p l b .nothing p' l b
  | append {p' : Process} (batch : List LogRecord)
      (hbatch : ∀ r ∈ numberFrom (l.lastRevision + 1) batch, Storable r)
      (hdir : p'.log.dir = appendTo p.log.dir l.active.name
        (batchBytes l.lastRevision batch))
      (hpending : p'.pending = p.pending) (hops : p'.ops = p.ops) :
      StepEffect p l b .nothing p' (l.published batch) (b.published batch)
  | rotate {p' : Process} (hne : l.active.records ≠ [])
      (hdir : p'.log.dir = p.log.dir.insert l.freshName header)
      (hpending : p'.pending = p.pending ++
        if p.log.archiving then [{ name := l.active.name }] else [])
      (hops : p'.ops = p.ops) : StepEffect p l b .nothing p' l.rotate b.rotate
  | rename {p' : Process} {pre group rest : List LogFile} {kept : List (Nat × LogRecord)}
      {b' : FilesystemLog} (hb : b = l) (hclosed : l.closed = pre ++ group ++ rest)
      (hne : group ≠ []) (hsub : kept.Sublist (group.flatMap records))
      (hdir : p'.log.dir =
        p.log.dir.insert (FilesystemLog.compactedFile group kept).name (encodeFile kept))
      (hpending : p'.pending = p.pending) (hops : p'.ops = p.ops) (hb' : Compacts b b') :
      StepEffect p l b (.renames (FilesystemLog.compactedFile group kept).name (encodeFile kept)) p' l b'
  | swap {p' : Process} {pre group rest : List LogFile} {kept : List (Nat × LogRecord)}
      (hclosed : l.closed = pre ++ group ++ rest) (hne : group ≠ [])
      (hsub : kept.Sublist (group.flatMap records))
      (hdir : p'.log.dir = p.log.dir) (hpending : p'.pending = p.pending) (hold : p.ops = [])
      (hops : p'.ops = groupOps group kept) :
      StepEffect p l b .nothing p' (l.compactGroup group kept) b
  | removal {p' : Process} {n : FileName} {b' : FilesystemLog}
      (hdir : p'.log.dir = p.log.dir.erase n) (hpending : p'.pending = p.pending)
      (hops : p'.ops = p.ops) (hb' : Compacts b b') : StepEffect p l b (.removes n) p' l b'
  | enqueue {p' : Process} {op : ArchiverOp} (hb : b = l) (hops : p.ops = op :: p'.ops)
      (hdir : p'.log.dir = p.log.dir)
      (hpending : p'.pending = p.pending ++ if p.log.archiving then [op] else [])
      (hname : op.remove = false → ∃ g ∈ l.closed, g.name = op.name) :
      StepEffect p l b (.queues op) p' l b

variable {l : FilesystemLog}

theorem Indexes.onDisk {d : DiskLog} (h : Indexes d l) (hwf : l.WF) : ∀ g ∈ l.files, g.OnDisk := by
  intro g hg
  obtain ⟨f, -, hfg⟩ := forall₂_mem h.files hg
  refine hfg.onDisk ?_
  rcases mem_append.mp hg with hg | hg
  · exact (hwf.closed.of_mem hg).1
  · rw [List.mem_singleton.mp hg]
    exact hwf.active

/-- What the next step of a compaction does to the files and the queue. -/
def Process.touch (p : Process) (live : FilesystemLog.LiveFunc) : Touch :=
  match p.job with
  | some (.grouped (g :: _)) =>
    if g.rewritten then
      match p.log.rewrite live g.files with
      | .ok (log, file) => .renames file.name ((log.dir.lookup file.name).getD [])
      | .error _ => .nothing
    else .nothing
  | some (.replacing (n :: _) _ _) => .removes n
  | some (.replacing [] (op :: _) _) => .queues op
  | _ => .nothing

variable {batch : List LogRecord}

namespace Running

variable {p p' : Process} {l b : FilesystemLog}

section

variable (h : Running p l b)
include h

theorem disk : ∀ g ∈ l.files, g.OnDisk := h.index.onDisk h.wf

theorem recovers : Recovers p.log.dir b := h.job.recovers h.wf h.disk

/-! ### Commits and rotations -/

theorem published (hbatch : ∀ r ∈ numberFrom (l.lastRevision + 1) batch, Storable r) :
    Running { p with log := p.log.published batch } (l.published batch) (b.published batch) ∧
      StepEffect p l b .nothing { p with log := p.log.published batch } (l.published batch)
        (b.published batch) := by
  have hdir : (p.log.published batch).dir = appendTo p.log.dir l.active.name
      (batchBytes l.lastRevision batch) := by
    show appendTo _ _ _ = _
    rw [h.index.active.name, h.index.lastRevision]
    rfl
  refine ⟨⟨h.index.published hbatch h.wf.dense, FilesystemLog.wf_published h.wf batch, ?_⟩,
    .append batch hbatch hdir rfl rfl⟩
  show JobOK (p.log.published batch).dir _ _ _
  rw [hdir]
  exact h.job.append h.wf hbatch

theorem rotate :
    (p.log.rotate = p.log ∧ l.rotate = l ∧ b.rotate = b) ∨
    Running { p with log := p.log.rotate } l.rotate b.rotate ∧
      StepEffect p l b .nothing { p with log := p.log.rotate } l.rotate b.rotate := by
  by_cases hne : l.active.records = []
  · left
    have hcount : p.log.active.count = 0 := by rw [h.index.active.count, hne]; rfl
    have hlcount : l.active.count = 0 := by rw [count, hne]; rfl
    have hbcount : b.active.count = 0 := by rw [h.job.frame.1]; exact hlcount
    exact ⟨by rw [DiskLog.rotate, if_pos hcount], by rw [FilesystemLog.rotate, if_pos hlcount],
      by rw [FilesystemLog.rotate, if_pos hbcount]⟩
  · right
    have hcount : p.log.active.count ≠ 0 := by
      rw [h.index.active.count]
      exact fun h0 => hne (List.length_eq_zero_iff.mp h0)
    have hfresh : (freshFile p.log.lastRevision).name = l.freshName := by
      rw [h.index.lastRevision]
      rfl
    have hrotate : p.log.rotate = ({ p.log with
        dir := p.log.dir.insert l.freshName header
        closed := p.log.closed ++ [p.log.active]
        active := freshFile p.log.lastRevision } : DiskLog).enqueue
          [{ name := l.active.name }] := by
      rw [DiskLog.rotate, if_neg hcount, h.index.active.name, hfresh]
    have hdir : p.log.rotate.dir = p.log.dir.insert l.freshName header := by
      rw [hrotate, enqueue_dir]
    refine ⟨⟨h.index.rotate, FilesystemLog.wf_rotate h.wf, ?_⟩, .rotate hne hdir ?_ rfl⟩
    · show JobOK p.log.rotate.dir _ _ _
      rw [hdir]
      exact h.job.create h.wf hne
    · show p.current.toList ++ p.log.rotate.queue = _
      rw [hrotate, enqueue]
      split
      · simp [Process.pending]
      · simp [Process.pending]

/-! ### The index alone -/

/-- A new index entry for some closed files. -/
theorem reindex {closed : List IndexFile} {active : IndexFile}
    (hclosed : List.Forall₂ Describes closed l.closed) (hactive : Describes active l.active)
    (hindexed : active.indexed = true) (hp : p' = { p with
    log := { p.log with closed := closed, active := active } }) :
    Running p' l b ∧ StepEffect p l b .nothing p' l b := by
  subst hp
  exact ⟨⟨⟨h.index.opts, hclosed, hactive, hindexed, h.index.lastRevision⟩, h.wf, h.job⟩,
    .stay rfl rfl rfl⟩

end

end Running

variable {f : IndexFile}

theorem Describes.mark (h : Describes f g) (archived : Bool) :
    Describes { f with archived := archived } g :=
  ⟨h.first, h.last, h.sparse, h.count, h.size, h.sizes, h.storable, h.plain, h.spans⟩

theorem forall₂_map_describes {fs : List IndexFile} {gs : List LogFile}
    (h : List.Forall₂ Describes fs gs) {f : IndexFile → IndexFile}
    (hf : ∀ x, ∀ g ∈ gs, Describes x g → Describes (f x) g) :
    List.Forall₂ Describes (fs.map f) gs := by
  induction h with
  | nil => exact .nil
  | cons hfg _ ih =>
    exact .cons (hf _ _ mem_cons_self hfg)
      (ih fun x g hg => hf x g (List.mem_cons_of_mem _ hg))

/-- A file rewritten in place is shorter, unless nothing was dropped. -/
theorem length_encodeFile_lt {rs rs' : List (Nat × LogRecord)} (h : rs.Sublist rs')
    (hne : rs ≠ rs') : (encodeFile rs).length < (encodeFile rs').length := by
  have hwrite : ∀ r : Nat × LogRecord, 0 < (write r).length := by
    intro r
    rw [write_eq, length_append]
    have := Protowire.length_appendVarint_pos (encodeRecord r.1 r.2).length
    omega
  have hle : ∀ {xs ys : List (Nat × LogRecord)}, xs.Sublist ys →
      (xs.flatMap write).length ≤ (ys.flatMap write).length := by
    intro xs ys hsub
    exact (hsub.flatMap write).length_le
  have hlt : ∀ {xs ys : List (Nat × LogRecord)}, xs.Sublist ys → xs ≠ ys →
      (xs.flatMap write).length < (ys.flatMap write).length := by
    intro xs ys hsub
    induction hsub with
    | slnil => exact fun hne => absurd rfl hne
    | cons y hsub _ =>
      intro _
      have := hle hsub
      have := hwrite y
      rw [flatMap_cons, length_append]
      omega
    | cons_cons y _ ih =>
      intro hne
      have := ih fun heq => hne (by rw [heq])
      rw [flatMap_cons, flatMap_cons, length_append, length_append]
      omega
  rw [encodeFile, encodeFile, length_append, length_append]
  have := hlt h hne
  omega

variable {dir : Dir}

/-- Indexing a file on first read: the entry stays true even while the file is being rewritten in
place, because it is then too short to be read. -/
theorem Describes.loaded (h : Describes f g)
    (hdata : ∀ data, dir.lookup g.name = some data →
      ∃ rs, rs.Sublist g.records ∧ data = encodeFile rs) :
    Describes (((DiskLog.load dir f).toOption.map Prod.fst).getD f) g := by
  cases hlookup : dir.lookup g.name with
  | none =>
    have herr : DiskLog.load dir f = .error (.missing f.name) := by
      rw [DiskLog.load, DiskLog.fileData, h.name, hlookup]
    rw [herr]
    exact h
  | some data =>
    obtain ⟨rs, hsub, rfl⟩ := hdata data hlookup
    by_cases hrs : rs = g.records
    · subst hrs
      obtain ⟨f', hload, hdesc, -, -⟩ := h.load hlookup
      rw [hload]
      exact hdesc
    · have hshort := length_encodeFile_lt hsub hrs
      have herr : DiskLog.load dir f = .error (.short f.name) := by
        rw [DiskLog.load, DiskLog.fileData, h.name, hlookup]
        simp only
        rw [if_pos (by rw [h.size]; exact hshort)]
      rw [herr]
      exact h

/-- A file of a group that has the name of the new file is the whole group. -/
theorem group_eq_singleton {pre group rest : List LogFile} {kept : List (Nat × LogRecord)}
    (hwf : l.WF) (hclosed : l.closed = pre ++ group ++ rest) (hne : group ≠ [])
    (hsub : kept.Sublist (group.flatMap records)) (hg : g ∈ group)
    (hname : g.name = (FilesystemLog.compactedFile group kept).name) : group = [g] := by
  have hmem : ∀ x ∈ group, x ∈ l.files := fun x hx => by
    rw [FilesystemLog.files, hclosed]
    simp [hx]
  obtain ⟨a, b, -, htiled, -⟩ := hwf.split hclosed
  obtain ⟨x, gs, hcons⟩ := List.exists_cons_of_ne_nil hne
  have hend : (FilesystemLog.compactedFile group kept).last + 1 = b :=
    (FilesystemLog.tiled_compactedFile htiled hne hsub).2.2.2
  have hlast : g.sparse = true ∧ g.first = (FilesystemLog.compactedFile group kept).first ∧
      g.last = (FilesystemLog.compactedFile group kept).last := by
    unfold name at hname
    split at hname
    · next hs => simpa [FilesystemLog.compactedFile, hs] using hname
    · cases hname
  have hgx : g = x := by
    refine hwf.file_eq (hmem g hg) (hmem x (hcons ▸ mem_cons_self)) ?_
    rw [hlast.2.1, hcons]
    rfl
  subst hgx
  rw [hcons] at htiled ⊢
  cases gs with
  | nil => rfl
  | cons y gs =>
    obtain ⟨-, -, -, hy, hle, -, hrest⟩ := htiled
    have := hrest.le
    omega

variable {job : Option CompactJob}

/-- What a read of a closed file finds. -/
theorem JobOK.content {b : FilesystemLog} (h : JobOK dir l job b) (hg : g ∈ l.closed) {data : Bytes}
    (hdata : dir.lookup g.name = some data) :
    ∃ rs, rs.Sublist g.records ∧ data = encodeFile rs := by
  have hwhole : dir.lookup g.name = some (encodeFile g.records) →
      ∃ rs, rs.Sublist g.records ∧ data = encodeFile rs := fun heq =>
    ⟨g.records, List.Sublist.refl _, Option.some.inj (hdata.symm.trans heq)⟩
  cases h with
  | idle hdir | measuring hdir | grouped hdir => exact hwhole (hdir.holds g (mem_append_left _ hg))
  | @renamed _ _ _ pre lgroup rest gs kept hdir _ _ _ =>
    rw [hdir.closed] at hg
    by_cases hin : g ∈ lgroup
    · by_cases hname : g.name = (FilesystemLog.compactedFile lgroup kept).name
      · -- The file is being rewritten in place.
        have hone := group_eq_singleton hdir.wf hdir.closed hdir.ne hdir.sub hin hname
        have hsub := hdir.sub
        rw [hone] at hsub
        refine ⟨kept, by simpa using hsub, ?_⟩
        rw [hname, hdir.new] at hdata
        exact (Option.some.inj hdata).symm
      · exact hwhole (hdir.old g hin (mem_replacedNames.mpr ⟨⟨g, hin, rfl⟩, hname⟩))
    · refine hwhole (hdir.others g (mem_append_left _ ?_))
      simp only [mem_append] at hg ⊢
      tauto
  | @replacing _ _ _ pre lgroup rest gs kept hclosed hdir _ _ =>
    rw [hclosed] at hg
    rcases mem_append.mp hg with hg | hg
    · exact hwhole (hdir.others g (mem_append_left _ (mem_append_left _ hg)))
    · rcases mem_cons.mp hg with rfl | hg
      · exact hwhole hdir.new
      · exact hwhole (hdir.others g (mem_append_left _ (List.mem_append_right _ hg)))

namespace Running

variable {p p' : Process} {l b : FilesystemLog}

section

variable (h : Running p l b)
include h

theorem load (revision : Nat) :
    Running (p.load revision) l b ∧ StepEffect p l b .nothing (p.load revision) l b := by
  unfold Process.load
  split
  · exact ⟨h, .stay rfl rfl rfl⟩
  · next f _ =>
    refine h.reindex (forall₂_map_describes h.index.closed fun x g hg hx => ?_) h.index.active
      h.index.indexed rfl
    split
    · exact hx.loaded fun data hdata => h.job.content hg hdata
    · exact hx

theorem markArchived (name : FileName) :
    Running (p.markArchived name) l b ∧ StepEffect p l b .nothing (p.markArchived name) l b := by
  refine h.reindex (forall₂_map_describes h.index.closed fun x g _ hx => ?_) ?_ ?_ rfl
  · split
    · exact hx.mark true
    · exact hx
  · dsimp only
    split
    · exact h.index.active.mark true
    · exact h.index.active
  · dsimp only
    split
    · exact h.index.indexed
    · exact h.index.indexed

/-! ### Compaction -/

/-- A move of the compaction that only looks. -/
theorem withJob
    (hjob : JobOK p.log.dir l job b) (hops : ({ p with job := job } : Process).ops = p.ops) :
    Running { p with job := job } l b ∧ StepEffect p l b .nothing { p with job := job } l b :=
  ⟨⟨h.index, h.wf, hjob⟩, .stay rfl rfl hops⟩

theorem compact {through : Nat} (hp : p.compact through = some p') :
    Running p' l b ∧ StepEffect p l b .nothing p' l b := by
  unfold Process.compact at hp
  cases hjob : p.job with
  | some _ =>
    rw [hjob] at hp
    cases hp
  | none =>
    rw [hjob] at hp
    dsimp only at hp
    split at hp
    · cases hp
    · cases hp
      have hok := h.job
      rw [hjob] at hok
      cases hok with
      | idle hdir =>
        have heligible : List.Forall₂ Describes (p.log.eligible through)
            (l.eligible through) :=
          List.rel_filter (fun f g hfg => by simp [hfg.last]) h.index.closed
        have hrow : l.closed = [] ++ l.eligible through ++ l.ineligible through := by
          rw [List.nil_append, FilesystemLog.eligible_append_ineligible h.wf]
        refine h.withJob (.measuring hdir hrow .nil heligible) ?_
        simp [Process.ops, hjob]

end

end Running

variable {measured : List DiskLog.Measured}

/-- The groups are the measured files, in order. -/
theorem groupFiles_groups (rotateBytes : Int) :
    ∀ {ms fs : List LogFile} {g : DiskLog.Group},
      List.Forall₂ Describes (measured.map DiskLog.Measured.file) ms → GroupFiles g fs →
      ∃ gs, List.Forall₂ GroupFiles (groups rotateBytes g measured) gs ∧
        gs.flatten = fs ++ ms := by
  induction measured with
  | nil =>
    intro ms fs g hms hg
    cases hms
    exact ⟨[fs], .cons hg .nil, by simp⟩
  | cons m measured ih =>
    intro ms fs g hms hg
    cases hms with
    | @cons _ y _ ms hm hms =>
      rw [groups]
      split
      · have hone : GroupFiles (DiskLog.Group.empty.add m) [y] := .cons hm .nil
        obtain ⟨gs, hgs, hflat⟩ := ih hms hone
        exact ⟨fs :: gs, .cons hg hgs, by simp [hflat]⟩
      · have hadd : GroupFiles (g.add m) (fs ++ [y]) := List.rel_append hg (.cons hm .nil)
        obtain ⟨gs, hgs, hflat⟩ := ih hms hadd
        exact ⟨gs, hgs, by rw [hflat, append_assoc]; rfl⟩

/-! ### The steps of `compactGroup` -/

section Group

variable {dir : Dir} {l : FilesystemLog} {pre group rest : List LogFile}
  {kept : List (Nat × LogRecord)} {ns : List FileName}

/-- The new file is renamed into place. -/
theorem HoldsOnly.renamed (h : HoldsOnly dir l.files) (hwf : l.WF)
    (hdisk : ∀ g ∈ l.files, g.OnDisk) (hclosed : l.closed = pre ++ group ++ rest)
    (hne : group ≠ []) (hsub : kept.Sublist (group.flatMap records)) :
    Replacing (dir.insert (FilesystemLog.compactedFile group kept).name (encodeFile kept)) l
      pre group rest kept (replacedNames group kept) := by
  have hold : ∀ g, g ∈ l.files ↔ g ∈ group ∨ g ∈ pre ++ rest ++ [l.active] := by
    intro g
    rw [FilesystemLog.files, hclosed]
    simp only [mem_append]
    tauto
  refine ⟨hwf, hdisk, hclosed, hne, hsub, List.suffix_rfl, AList.lookup_insert _, fun g hg => ?_,
    fun g hg hname => ?_, fun n hn => ?_⟩
  · obtain ⟨x, hx, hfirst⟩ := first_compactedFile hne kept
    have hother : g.name ≠ (FilesystemLog.compactedFile group kept).name := by
      intro heq
      apply first_ne_of_group hwf hclosed hg hx
      rw [← g.first_name, heq, first_name, hfirst]
    rw [AList.lookup_insert_ne hother]
    exact h.holds g ((hold g).mpr (Or.inr hg))
  · rw [AList.lookup_insert_ne (mem_replacedNames.mp hname).2]
    exact h.holds g ((hold g).mpr (Or.inl hg))
  · rcases (AList.mem_insert _).mp hn with rfl | hn
    · exact Or.inl rfl
    · by_cases heq : n = (FilesystemLog.compactedFile group kept).name
      · exact Or.inl heq
      · obtain ⟨g, hg, rfl⟩ := h.only n hn
        rcases (hold g).mp hg with hg | hg
        · exact Or.inr (Or.inr (mem_replacedNames.mpr ⟨⟨g, hg, rfl⟩, heq⟩))
        · exact Or.inr (Or.inl (List.mem_map_of_mem hg))

/-- One of the old files is removed. -/
theorem Replacing.remove {n : FileName} (h : Replacing dir l pre group rest kept (n :: ns)) :
    Replacing (dir.erase n) l pre group rest kept ns := by
  obtain ⟨⟨x, hx, hxn⟩, hnew⟩ := mem_replacedNames.mp (h.left.subset mem_cons_self)
  have hnodup : (n :: ns).Nodup := by
    have hasc := names_precede_of_ascending (group_ascends h.wf h.closed)
    exact (hasc.imp And.right).sublist (h.left.sublist.trans List.filter_sublist)
  refine ⟨h.wf, h.disk, h.closed, h.ne, h.sub, (List.suffix_cons n ns).trans h.left, ?_,
    fun g hg => ?_, fun g hg hname => ?_, fun m hm => ?_⟩
  · rw [AList.lookup_erase_ne hnew.symm]
    exact h.new
  · have hne : g.name ≠ n := by
      intro heq
      apply first_ne_of_group h.wf h.closed hg hx
      rw [← g.first_name, heq, ← hxn, x.first_name]
    rw [AList.lookup_erase_ne hne]
    exact h.others g hg
  · have hne : g.name ≠ n := fun heq => (List.nodup_cons.mp hnodup).1 (heq ▸ hname)
    rw [AList.lookup_erase_ne hne]
    exact h.old g hg (List.mem_cons_of_mem _ hname)
  · rw [AList.mem_erase] at hm
    rcases h.only m hm.2 with hm' | hm' | hm'
    · exact Or.inl hm'
    · exact Or.inr (Or.inl hm')
    · rcases mem_cons.mp hm' with heq | hm'
      · exact absurd heq hm.1
      · exact Or.inr (Or.inr hm')

/-- All old files are gone. -/
theorem Replacing.holdsOnly (h : Replacing dir l pre group rest kept []) :
    HoldsOnly dir (l.compactGroup group kept).files := by
  rw [h.files_compactGroup]
  constructor
  · intro g hg
    simp only [append_assoc, List.cons_append, mem_append, mem_cons] at hg
    rcases hg with hg | rfl | hg | hg
    · exact h.others g (mem_append_left _ (mem_append_left _ hg))
    · exact h.new
    · exact h.others g (mem_append_left _ (List.mem_append_right _ hg))
    · exact h.others g (List.mem_append_right _ (by simpa using hg))
  · intro n hn
    rcases h.only n hn with rfl | hn | hn
    · exact ⟨_, by simp, rfl⟩
    · obtain ⟨g, hg, rfl⟩ := mem_map.mp hn
      refine ⟨g, ?_, rfl⟩
      simp only [append_assoc, List.cons_append, mem_append, mem_cons] at hg ⊢
      tauto
    · cases hn

theorem not_undone_nil (group : List LogFile) : ¬ Undone group [] := by
  rintro ⟨g, -, -, hg⟩
  cases hg

/-- The log with the group in its place again, compacted, is the log. -/
theorem recovered_nil {closed : List LogFile}
    (h : Replacing dir (l.withClosed closed) pre group rest kept ns)
    (hclosed : l.closed = pre ++ FilesystemLog.compactedFile group kept :: rest) :
    recovered (l.withClosed closed) group kept [] = l := by
  rw [recovered, if_neg (not_undone_nil group)]
  have hspec := (FilesystemLog.compactGroup_spec h.wf h.closed h.ne h.sub).1
  rw [← hclosed] at hspec
  show { l with closed := ((l.withClosed closed).compactGroup group kept).closed } = l
  rw [hspec]

theorem compacts_recovered (hwf : l.WF) (hclosed : l.closed = pre ++ group ++ rest)
    (hne : group ≠ []) (hsub : kept.Sublist (group.flatMap records))
    (ns : List FileName) : Compacts l (recovered l group kept ns) := by
  unfold recovered
  split
  · exact Or.inl rfl
  · exact Or.inr ⟨pre, group, rest, kept, hwf, hclosed, hne, hsub, rfl⟩

/-- The removal of an old file may decide that the new file stays. -/
theorem compacts_remove {n : FileName} (h : Replacing dir l pre group rest kept (n :: ns)) :
    Compacts (recovered l group kept (n :: ns)) (recovered l group kept ns) := by
  by_cases hundone : Undone group (n :: ns)
  · rw [recovered, if_pos hundone]
    exact compacts_recovered h.wf h.closed h.ne h.sub ns
  · have hlater : ¬ Undone group ns := by
      rintro ⟨g, hg, hs, hin⟩
      exact hundone ⟨g, hg, hs, List.mem_cons_of_mem _ hin⟩
    rw [recovered, if_neg hundone, recovered, if_neg hlater]
    exact Or.inl rfl

end Group

namespace Running

variable {p p' : Process} {l b : FilesystemLog} {live : FilesystemLog.LiveFunc}
variable {todo : List DiskLog.Group}

theorem measure_file {m : DiskLog.Measured} (h : measure dir live f = .ok m) : m.file = f := by
  unfold DiskLog.measure at h
  split at h
  · cases h
  · cases h
    rfl

/-- `compactStep` while the files are measured. -/
theorem step_measuring (h : Running p l b) {todo : List IndexFile}
    (hjob : p.job = some (.measuring todo measured)) (hp : p.compactStep live = some p') :
    Running p' l b ∧ StepEffect p l b (p.touch live) p' l b := by
  have htouch : p.touch live = .nothing := by simp [Process.touch, hjob]
  rw [htouch]
  have hok := h.job
  have hops : p.ops = [] := by simp [Process.ops, hjob]
  rw [hjob] at hok
  cases hok with
  | @measuring _ _ ms ltodo rest hdir hclosed hms htodo =>
    unfold Process.compactStep at hp
    rw [hjob] at hp
    cases htodo with
    | nil =>
      cases hp
      have hempty : GroupFiles DiskLog.Group.empty [] := .nil
      obtain ⟨gs, hgs, hflat⟩ := groupFiles_groups p.log.opts.rotateBytes hms hempty
      have hrow : l.closed = [] ++ gs.flatten ++ rest := by
        rw [hflat, hclosed]
        simp
      exact h.withJob (.grouped hdir hrow hgs) (by rw [hops]; rfl)
    | @cons f y todo ltodo hf htodo =>
      dsimp only at hp
      split at hp
      · cases hp
        exact h.withJob (.idle hdir) (by rw [hops]; rfl)
      · next m hm =>
        cases hp
        have hrow : l.closed = (ms ++ [y]) ++ ltodo ++ rest := by
          rw [hclosed]
          simp
        have hms' : List.Forall₂ Describes
            ((measured ++ [m]).map DiskLog.Measured.file) (ms ++ [y]) := by
          rw [List.map_append]
          refine List.rel_append hms (.cons ?_ .nil)
          rw [measure_file hm]
          exact hf
        exact h.withJob (.measuring hdir hrow hms' htodo) (by rw [hops]; rfl)

theorem ne_nil_of_rewritten {g : DiskLog.Group} {fs : List LogFile} (hg : GroupFiles g fs)
    (hre : g.rewritten = true) : fs ≠ [] := by
  rintro rfl
  have hnil : g.files = [] := List.forall₂_nil_right_iff.mp hg
  simp [DiskLog.Group.rewritten, hnil] at hre

section

variable (h : Running p l b)
include h

/-- `compactStep` before a group. -/
theorem step_grouped (hjob : p.job = some (.grouped todo)) (hp : p.compactStep live = some p') :
    ∃ b', Running p' l b' ∧ StepEffect p l b (p.touch live) p' l b' := by
  have hok := h.job
  have hops : p.ops = [] := by simp [Process.ops, hjob]
  rw [hjob] at hok
  cases hok with
  | @grouped _ gs pre rest hdir hclosed htodo =>
    unfold Process.compactStep at hp
    rw [hjob] at hp
    cases htodo with
    | nil =>
      cases hp
      have htouch : p.touch live = .nothing := by simp [Process.touch, hjob]
      rw [htouch]
      exact ⟨l, h.withJob (.idle hdir) (by rw [hops]; rfl)⟩
    | @cons g fs todo gs hg htodo =>
      dsimp only at hp
      have hrow : l.closed = pre ++ fs ++ (gs.flatten ++ rest) := by
        rw [hclosed]
        simp
      split at hp
      · next hre =>
        have hne := ne_nil_of_rewritten hg hre
        have hin : ∀ x ∈ fs, x ∈ l.closed := fun x hx => by
          rw [hrow]
          simp [hx]
        obtain ⟨file, hfile, -, hrewrite⟩ := Indexes.rewrite hg
          (fun x hx => (h.wf.closed.of_mem (hin x hx)).1)
          (hdir.holds.subset fun x hx => mem_append_left _ (hin x hx)) live
        rw [hrewrite] at hp
        cases hp
        have hsub : ((fs.flatMap records).filter
            (FilesystemLog.isLive live)).Sublist (fs.flatMap records) :=
          List.filter_sublist
        have hrenamed := hdir.renamed h.wf h.disk hrow hne hsub
        rw [← hfile.name] at hrenamed
        have htouch : p.touch live = .renames (FilesystemLog.compactedFile fs
            ((fs.flatMap records).filter (FilesystemLog.isLive live))).name
              (encodeFile ((fs.flatMap records).filter
                (FilesystemLog.isLive live))) := by
          simp only [Process.touch, hjob, hre, if_true, hrewrite]
          rw [AList.lookup_insert, hfile.name]
          rfl
        rw [htouch]
        refine ⟨_, ⟨⟨h.index.opts, h.index.closed, h.index.active, h.index.indexed,
          h.index.lastRevision⟩, h.wf, .renamed hrenamed hg hfile htodo⟩, ?_⟩
        refine .rename rfl hrow hne hsub ?_ rfl (by rw [hops]; rfl)
          (compacts_recovered h.wf hrow hne hsub _)
        rw [← hfile.name]
      · next hre =>
        cases hp
        have hrow' : l.closed = (pre ++ fs) ++ gs.flatten ++ rest := by
          rw [hclosed]
          simp
        have htouch : p.touch live = .nothing := by simp [Process.touch, hjob, hre]
        rw [htouch]
        exact ⟨l, h.withJob (.grouped hdir hrow' htodo) (by rw [hops]; rfl)⟩

/-- `compactStep` when the new file is in place: the index is swapped. -/
theorem step_renamed {group : List IndexFile} {file : IndexFile}
    (hjob : p.job = some (.renamed group file todo)) (hp : p.compactStep live = some p') :
    ∃ pre lgroup rest kept b', List.Forall₂ Describes group lgroup ∧
      l.closed = pre ++ lgroup ++ rest ∧ lgroup ≠ [] ∧
      kept.Sublist (lgroup.flatMap records) ∧ Running p' (l.compactGroup lgroup kept) b' ∧
      StepEffect p l b (p.touch live) p' (l.compactGroup lgroup kept) b' := by
  have hok := h.job
  have hops : p.ops = [] := by simp [Process.ops, hjob]
  rw [hjob] at hok
  cases hok with
  | @renamed _ _ _ pre lgroup rest gs kept hdir hgroup hfile htodo =>
    have htouch : p.touch live = .nothing := by simp [Process.touch, hjob]
    rw [htouch]
    unfold Process.compactStep at hp
    rw [hjob] at hp
    cases hp
    have hnames : replaced group file = replacedNames lgroup kept := by
      rw [replaced, forall₂_names hgroup, hfile.name]
      rfl
    have harchive : archiveOps group file = groupOps lgroup kept := by
      rw [archiveOps, hnames, hfile.name]
      rfl
    obtain ⟨hclosed, hwf⟩ := FilesystemLog.compactGroup_spec h.wf hdir.closed hdir.ne hdir.sub
    have hback : (l.compactGroup lgroup kept).withClosed (pre ++ lgroup ++ (gs.flatten ++ rest)) =
        l := by
      rw [← hdir.closed]
      rfl
    refine ⟨pre, lgroup, _, kept, recovered l lgroup kept (replacedNames lgroup kept), hgroup,
      hdir.closed, hdir.ne, hdir.sub, ⟨h.index.swap hgroup hfile, hwf, ?_⟩, ?_⟩
    · rw [hnames, harchive]
      have hok : JobOK p.log.dir (l.compactGroup lgroup kept)
          (some (.replacing (replacedNames lgroup kept) (groupOps lgroup kept) todo))
          (recovered ((l.compactGroup lgroup kept).withClosed
            (pre ++ lgroup ++ (gs.flatten ++ rest))) lgroup kept (replacedNames lgroup kept)) :=
        .replacing hclosed (by rw [hback]; exact hdir) List.suffix_rfl htodo
      rw [hback] at hok
      exact hok
    · exact .swap hdir.closed hdir.ne hdir.sub rfl rfl hops harchive

/-- `compactStep` when the index has been swapped: files are removed and operations queued. -/
theorem step_replacing {names : List FileName} {ops : List ArchiverOp}
    (hjob : p.job = some (.replacing names ops todo)) (hp : p.compactStep live = some p') :
    ∃ b', Running p' l b' ∧ StepEffect p l b (p.touch live) p' l b' := by
  have hok := h.job
  have hops : p.ops = ops := by simp [Process.ops, hjob]
  rw [hjob] at hok
  cases hok with
  | @replacing _ _ _ pre lgroup rest gs kept hclosed hdir hsuffix htodo =>
    unfold Process.compactStep at hp
    rw [hjob] at hp
    cases names with
    | cons n names =>
      cases hp
      have htouch : p.touch live = .removes n := by simp [Process.touch, hjob]
      rw [htouch]
      refine ⟨_, ⟨⟨h.index.opts, h.index.closed, h.index.active, h.index.indexed,
        h.index.lastRevision⟩, h.wf, .replacing hclosed hdir.remove hsuffix htodo⟩, ?_⟩
      exact .removal rfl rfl (by rw [hops]; rfl) (compacts_remove hdir)
    | nil =>
      have hback := recovered_nil hdir hclosed
      cases ops with
      | cons op ops =>
        cases hp
        have htouch : p.touch live = .queues op := by simp [Process.touch, hjob]
        rw [htouch]
        refine ⟨recovered (l.withClosed (pre ++ lgroup ++ (gs.flatten ++ rest))) lgroup
          kept [], ⟨enqueue_index h.index _, h.wf, ?_⟩, ?_⟩
        · rw [enqueue_dir]
          exact .replacing hclosed hdir ((List.suffix_cons op ops).trans hsuffix) htodo
        · refine .enqueue hback (by rw [hops]; rfl) (enqueue_dir _ _) ?_
            fun hup => ?_
          · show p.current.toList ++ (p.log.enqueue [op]).queue = _
            rw [enqueue]
            split
            · simp [Process.pending]
            · simp [Process.pending]
          · have hmem := hsuffix.subset mem_cons_self
            rw [groupOps] at hmem
            rcases mem_cons.mp hmem with rfl | hmem
            · exact ⟨FilesystemLog.compactedFile lgroup kept, by rw [hclosed]; simp, rfl⟩
            · obtain ⟨n, -, rfl⟩ := mem_map.mp hmem
              cases hup
      | nil =>
        cases hp
        have htouch : p.touch live = .nothing := by simp [Process.touch, hjob]
        rw [htouch]
        have hholds := hdir.holdsOnly
        have heq : (l.withClosed (pre ++ lgroup ++ (gs.flatten ++ rest))).compactGroup
            lgroup kept = l := by
          rw [recovered, if_neg (not_undone_nil lgroup)] at hback
          exact hback
        rw [heq] at hholds
        have hrow : l.closed = (pre ++ [FilesystemLog.compactedFile lgroup kept]) ++
            gs.flatten ++ rest := by
          rw [hclosed]
          simp
        rw [hback] at h ⊢
        exact ⟨l, h.withJob (.grouped hholds hrow htodo) (by rw [hops]; rfl)⟩

/-- Every step of a compaction. -/
theorem compactStep (hp : p.compactStep live = some p') :
    ∃ l' b', Running p' l' b' ∧ StepEffect p l b (p.touch live) p' l' b' := by
  cases hjob : p.job with
  | none =>
    unfold Process.compactStep at hp
    rw [hjob] at hp
    cases hp
  | some job =>
    cases job with
    | measuring todo measured => exact ⟨l, b, h.step_measuring hjob hp⟩
    | grouped todo =>
      obtain ⟨b', hstep⟩ := h.step_grouped hjob hp
      exact ⟨l, b', hstep⟩
    | renamed group file todo =>
      obtain ⟨_, _, _, _, b', -, -, -, -, hstep⟩ := h.step_renamed hjob hp
      exact ⟨_, b', hstep⟩
    | replacing names ops todo =>
      obtain ⟨b', hstep⟩ := h.step_replacing hjob hp
      exact ⟨l, b', hstep⟩

end

end Running

/-! ### All moves -/

/-- One effect, or several that touch nothing, each from a state in which the process runs. -/
inductive Moves (p : Process) (l b : FilesystemLog) :
    Touch → Process → FilesystemLog → FilesystemLog → Prop
  | refl : Moves p l b .nothing p l b
  | tail {p₁ p₂ : Process} {l₁ b₁ l₂ b₂ : FilesystemLog} (hmoves : Moves p l b .nothing p₁ l₁ b₁)
      (hrunning : Running p₁ l₁ b₁) (heffect : StepEffect p₁ l₁ b₁ .nothing p₂ l₂ b₂)
      (harch : p₂.log.archiving = p₁.log.archiving) : Moves p l b .nothing p₂ l₂ b₂
  | one {touch : Touch} {p' : Process} {l' b' : FilesystemLog} (hrunning : Running p l b)
      (heffect : StepEffect p l b touch p' l' b') (harch : p'.log.archiving = p.log.archiving) :
      Moves p l b touch p' l' b'

/-- What every effect keeps, every move keeps. -/
theorem Moves.invariant {I : Process → FilesystemLog → FilesystemLog → Prop}
    (hI : ∀ p l b p' l' b', Running p l b → I p l b → StepEffect p l b .nothing p' l' b' →
      p'.log.archiving = p.log.archiving → I p' l' b') {p p' : Process} {b l' b' : FilesystemLog}
    (h : Moves p l b t p' l' b') (hone : ∀ p' l' b', t ≠ .nothing → StepEffect p l b t p' l' b' →
      p'.log.archiving = p.log.archiving → I p' l' b') (hstart : I p l b) : I p' l' b' := by
  induction h with
  | refl => exact hstart
  | tail _ hrunning heffect harch ih =>
    exact hI _ _ _ _ _ _ hrunning (ih fun _ _ _ hne => absurd rfl hne) heffect harch
  | @one t p' l' b' hrunning heffect harch =>
    by_cases ht : t = .nothing
    · subst ht
      exact hI _ _ _ _ _ _ hrunning hstart heffect harch
    · exact hone _ _ _ ht heffect harch

theorem Moves.trans {p p₁ p₂ : Process} {b l₁ b₁ l₂ b₂ : FilesystemLog}
    (h : Moves p l b .nothing p₁ l₁ b₁) (ht : t = .nothing) (h' : Moves p₁ l₁ b₁ t p₂ l₂ b₂) :
    Moves p l b .nothing p₂ l₂ b₂ := by
  induction h' with
  | refl => exact h
  | tail _ hrunning heffect harch ih => exact .tail (ih rfl) hrunning heffect harch
  | one hrunning heffect harch =>
    subst ht
    exact .tail h hrunning heffect harch

/-- A process keeps archiving, or keeps not archiving. -/
theorem Moves.archiving {p p' : Process} {b l' b' : FilesystemLog} (h : Moves p l b t p' l' b') :
    p'.log.archiving = p.log.archiving :=
  h.invariant (I := fun q _ _ => q.log.archiving = p.log.archiving)
    (fun _ _ _ _ _ _ _ hq _ harch => harch.trans hq) (fun _ _ _ _ _ harch => harch) rfl

variable {live : FilesystemLog.LiveFunc}

namespace DiskLog

@[simp] theorem enqueue_archiving (d : DiskLog) (ops : List ArchiverOp) :
    (d.enqueue ops).archiving = d.archiving := by
  unfold enqueue
  split <;> rfl

@[simp] theorem rotate_archiving (d : DiskLog) : d.rotate.archiving = d.archiving := by
  unfold rotate
  split
  · rfl
  · rw [enqueue_archiving]

theorem rewrite_archiving {d d' : DiskLog} {group : List IndexFile}
    {file : IndexFile} (h : d.rewrite live group = .ok (d', file)) : d'.archiving = d.archiving := by
  unfold rewrite at h
  split at h
  · cases h
  · cases h
    rfl

end DiskLog

namespace Process

open LogSystem (Action)

/-- The moves that the process makes on its own. -/
def move (p : Process) : Action → Option Process
  | .commit position batch => p.commit position batch
  | .tick => p.tick
  | .load revision => some (p.load revision)
  | .compact through => p.compact through
  | .compactStep live => p.compactStep live
  | .take => p.take
  | .close => p.close
  | _ => none

/-- What the move does to the files and the queue, beside commits and rotations. -/
def touchOf (p : Process) : Action → Touch
  | .compactStep live => p.touch live
  | _ => .nothing

theorem load_archiving (p : Process) (revision : Nat) :
    (p.load revision).log.archiving = p.log.archiving := by
  unfold load
  split <;> rfl

/-- What a commit does to the process. -/
theorem commit_cases {p p' : Process} {position : Nat} (hp : p.commit position batch = some p') :
    (p' = p ∧ (batch = [] ∨ position ≠ p.log.lastRevision)) ∨
      batch ≠ [] ∧ position = p.log.lastRevision ∧
        (∀ r ∈ numberFrom (p.log.lastRevision + 1) batch, Storable r) ∧
        (p' = { p with log := p.log.published batch } ∨
          p' = { p with log := (p.log.published batch).rotate }) := by
  unfold Process.commit at hp
  split at hp
  · cases hp
  · split at hp
    · next hbatch =>
      rw [commitBatch_eq] at hp
      split at hp
      · next log hlog =>
        cases hp
        split at hlog
        · cases hlog
        · next hne =>
          split at hlog
          · cases hlog
          · next hposition =>
            refine Or.inr ⟨by simpa using hne, not_not.mp hposition, hbatch, ?_⟩
            split at hlog
            · cases hlog
              exact Or.inr rfl
            · cases hlog
              exact Or.inl rfl
      · next e hlog =>
        cases hp
        refine Or.inl ⟨rfl, ?_⟩
        split at hlog
        · next hempty => exact Or.inl (by simpa using hempty)
        · split at hlog
          · next hposition => exact Or.inr hposition
          · split at hlog <;> cases hlog
    · cases hp

theorem compactStep_archiving {p p' : Process}
    (h : p.compactStep live = some p') : p'.log.archiving = p.log.archiving := by
  unfold compactStep at h
  split at h
  · cases h
  · cases h; rfl
  · split at h <;> cases h <;> rfl
  · cases h; rfl
  · split at h
    · split at h
      · cases h; rfl
      · next hrewrite =>
        cases h
        exact rewrite_archiving hrewrite
    · cases h; rfl
  · cases h; rfl
  · cases h; rfl
  · cases h
    exact enqueue_archiving _ _
  · cases h; rfl

end Process

namespace Running

variable {p p' : Process} {l b : FilesystemLog}

section

variable (h : Running p l b)
include h

/-- Rotation, also of an empty active file. -/
theorem moves_rotate :
    Running { p with log := p.log.rotate } l.rotate b.rotate ∧
      Moves p l b .nothing { p with log := p.log.rotate } l.rotate b.rotate := by
  rcases h.rotate with ⟨hsame, hl, hb⟩ | ⟨hrunning, heffect⟩
  · rw [hsame, hl, hb]
    exact ⟨h, .refl⟩
  · exact ⟨hrunning, Moves.one h heffect (rotate_archiving _)⟩

/-- A batch is refused, or published, perhaps with a rotation. -/
theorem moves_commit {position : Nat}
    (hp : p.commit position batch = some p') : ∃ l' b', Running p' l' b' ∧
      Moves p l b .nothing p' l' b' ∧ p'.job = p.job ∧
      (p' = p ∧ (batch = [] ∨ position ≠ l.lastRevision) ∧ l' = l ∧ b' = b ∨
        batch ≠ [] ∧ position = l.lastRevision ∧
          (l' = l.published batch ∧ b' = b.published batch ∨
            l' = (l.published batch).rotate ∧ b' = (b.published batch).rotate)) := by
  have hcases := Process.commit_cases hp
  rw [h.index.lastRevision] at hcases
  rcases hcases with ⟨rfl, hrefuse⟩ | ⟨hne, hposition, hbatch, rfl | rfl⟩
  · exact ⟨l, b, h, .refl, rfl, Or.inl ⟨rfl, hrefuse, rfl, rfl⟩⟩
  · obtain ⟨hpub, heffect⟩ := h.published hbatch
    exact ⟨_, _, hpub, Moves.one h heffect rfl, rfl, Or.inr ⟨hne, hposition, Or.inl ⟨rfl, rfl⟩⟩⟩
  · obtain ⟨hpub, heffect⟩ := h.published hbatch
    obtain ⟨hrot, hmoves⟩ := hpub.moves_rotate
    exact ⟨_, _, hrot, (Moves.one h heffect rfl).trans rfl hmoves, rfl,
      Or.inr ⟨hne, hposition, Or.inr ⟨rfl, rfl⟩⟩⟩

/-- The archiver takes an operation. -/
theorem moves_take (hp : p.take = some p') :
    Running p' l b ∧ Moves p l b .nothing p' l b ∧ p'.job = p.job := by
  unfold Process.take at hp
  split at hp
  · next op queue hcurrent hqueue =>
    cases hp
    refine ⟨⟨⟨h.index.opts, h.index.closed, h.index.active, h.index.indexed,
      h.index.lastRevision⟩, h.wf, h.job⟩, Moves.one h (.stay rfl ?_ rfl) rfl, rfl⟩
    simp [Process.pending, hcurrent, hqueue]
  · cases hp

/-- `Close` rotates if there is an archive. -/
theorem moves_close (hp : p.close = some p') :
    ∃ l' b', Running p' l' b' ∧ Moves p l b .nothing p' l' b' ∧ p'.job = p.job ∧
      (l' = l ∧ b' = b ∨ l' = l.rotate ∧ b' = b.rotate) := by
  unfold Process.close at hp
  split at hp
  · cases hp
  · split at hp
    · cases hp
    · next hjob =>
      cases hp
      have hclose : ∃ l' b', Running { p with log := p.log.close } l' b' ∧
          Moves p l b .nothing { p with log := p.log.close } l' b' ∧
          (l' = l ∧ b' = b ∨ l' = l.rotate ∧ b' = b.rotate) := by
        rw [close]
        split
        · obtain ⟨hrunning, hmoves⟩ := h.moves_rotate
          exact ⟨_, _, hrunning, hmoves, Or.inr ⟨rfl, rfl⟩⟩
        · exact ⟨l, b, h, .refl, Or.inl ⟨rfl, rfl⟩⟩
      obtain ⟨l', b', hrunning, hmoves, hcases⟩ := hclose
      exact ⟨l', b', ⟨hrunning.index, hrunning.wf, hrunning.job⟩,
        hmoves.tail hrunning (.stay rfl rfl rfl) rfl, rfl, hcases⟩

/-- Every move of the process is made of effects. -/
theorem move {a : LogSystem.Action} (hp : p.move a = some p') :
    ∃ l' b', Running p' l' b' ∧ Moves p l b (p.touchOf a) p' l' b' := by
  cases a with
  | start | failStart | carryOut | exit | crash => cases hp
  | commit position batch =>
    obtain ⟨l', b', hrunning, hmoves, -⟩ := h.moves_commit hp
    exact ⟨l', b', hrunning, hmoves⟩
  | tick =>
    change p.tick = some p' at hp
    unfold Process.tick at hp
    split at hp
    · cases hp
    · cases hp
      exact ⟨_, _, h.moves_rotate⟩
  | load revision =>
    cases hp
    obtain ⟨hrunning, heffect⟩ := h.load revision
    exact ⟨l, b, hrunning, Moves.one h heffect (p.load_archiving revision)⟩
  | compact through =>
    obtain ⟨hrunning, heffect⟩ := h.compact hp
    refine ⟨l, b, hrunning, Moves.one h heffect ?_⟩
    change p.compact through = some p' at hp
    unfold Process.compact at hp
    split at hp
    · cases hp
    · split at hp
      · cases hp
      · cases hp
        rfl
  | compactStep live =>
    obtain ⟨l', b', hrunning, heffect⟩ := h.compactStep hp
    exact ⟨l', b', hrunning, Moves.one h heffect (Process.compactStep_archiving hp)⟩
  | take =>
    obtain ⟨hrunning, hmoves, -⟩ := h.moves_take hp
    exact ⟨l, b, hrunning, hmoves⟩
  | close =>
    obtain ⟨l', b', hrunning, hmoves, -⟩ := h.moves_close hp
    exact ⟨l', b', hrunning, hmoves⟩

end

end Running

end CloudEtcd
