/-
# CloudEtcd.LogSystem.Phases — the directory while a compaction is in progress.

`JobOK dir l job b` says where a compaction stands: `l` is the log that the index describes, and `b`
the log that the directory recovers to if the process dies now.  They differ only while a compaction
replaces the files of a group.  Commits and rotations run beside a compaction and keep it where it
stands (`JobOK.append`, `JobOK.create`).
-/
import CloudEtcd.LogSystem.Interrupted

namespace CloudEtcd

open LogCodec FilesystemLog
open List (mem_append_right mem_singleton_self mem_append mem_append_left mem_singleton map_append
  map_singleton append_assoc)

/-! ## Writing to the active file and creating the next one -/

/-- The bytes of a batch. -/
def batchBytes (lastRevision : Nat) (batch : List LogRecord) : Bytes :=
  (numberFrom (lastRevision + 1) batch).flatMap write

theorem appendTo_active {dir : Dir} {l : FilesystemLog}
    (hactive : dir.lookup l.active.name = some (encodeFile l.active.records))
    (batch : List LogRecord) :
    DiskLog.appendTo dir l.active.name (batchBytes l.lastRevision batch) =
      dir.insert l.active.name (encodeFile (l.published batch).active.records) := by
  rw [DiskLog.appendTo, hactive]
  simp [encodeFile, published, batchBytes]

namespace HoldsOnly

variable {dir : Dir} {l : FilesystemLog}

theorem active (h : HoldsOnly dir l.files) :
    dir.lookup l.active.name = some (encodeFile l.active.records) :=
  h.holds _ (mem_append_right _ (mem_singleton_self _))

theorem append (h : HoldsOnly dir l.files) (hwf : l.WF) (batch : List LogRecord) :
    HoldsOnly (DiskLog.appendTo dir l.active.name (batchBytes l.lastRevision batch))
      (l.published batch).files := by
  rw [appendTo_active h.active]
  have hname := name_published hwf batch
  constructor
  · intro g hg
    rcases mem_append.mp hg with hg | hg
    · rw [AList.lookup_insert_ne (hwf.closed_name_ne hg)]
      exact h.holds g (mem_append_left _ hg)
    · rw [mem_singleton.mp hg, hname, AList.lookup_insert]
  · intro n hn
    rw [AList.mem_insert] at hn
    rcases hn with rfl | hn
    · exact ⟨_, mem_append_right _ (mem_singleton_self _), hname⟩
    · obtain ⟨g, hg, rfl⟩ := h.only n hn
      rcases mem_append.mp hg with hg | hg
      · exact ⟨g, mem_append_left _ hg, rfl⟩
      · rw [mem_singleton.mp hg]
        exact ⟨_, mem_append_right _ (mem_singleton_self _), hname⟩

theorem create (h : HoldsOnly dir l.files) (hwf : l.WF) (hne : l.active.records ≠ []) :
    HoldsOnly (dir.insert l.freshName header) l.rotate.files := by
  have hcount : l.active.count ≠ 0 := fun h0 => hne (List.length_eq_zero_iff.mp h0)
  have hfiles : l.rotate.files = l.files ++ [newActiveFile l.lastRevision] := by
    rw [rotate_eq hne]
    rfl
  rw [hfiles]
  constructor
  · intro g hg
    rcases mem_append.mp hg with hg | hg
    · rw [AList.lookup_insert_ne (hwf.fresh hcount g hg)]
      exact h.holds g hg
    · rw [mem_singleton.mp hg]
      exact AList.lookup_insert _
  · intro n hn
    rw [AList.mem_insert] at hn
    rcases hn with rfl | hn
    · exact ⟨_, mem_append_right _ (mem_singleton_self _), rfl⟩
    · obtain ⟨g, hg, rfl⟩ := h.only n hn
      exact ⟨g, mem_append_left _ hg, rfl⟩

end HoldsOnly

variable {batch : List LogRecord}

namespace Replacing

variable {dir : Dir} {l : FilesystemLog} {pre group rest : List LogFile}
  {kept : List (Nat × LogRecord)} {ns : List FileName}

section

variable (h : Replacing dir l pre group rest kept ns)
include h

theorem active : dir.lookup l.active.name = some (encodeFile l.active.records) :=
  h.others _ (mem_append_right _ (mem_singleton_self _))

/-- The new file starts where the group does. -/
theorem first_new : ∃ g ∈ group, (compactedFile group kept).name.first = g.first := by
  obtain ⟨g, hg, hfirst⟩ := first_compactedFile h.ne kept
  exact ⟨g, hg, by rw [LogFile.first_name, hfirst]⟩

/-- Another file of the directory than those that take part is written. -/
theorem insert {n : FileName} (hlow : ∀ g ∈ group, g.first < n.first) (data : Bytes) :
    (dir.insert n data).lookup (compactedFile group kept).name =
        some (encodeFile kept) ∧
      ∀ g ∈ group, g.name ∈ ns → (dir.insert n data).lookup g.name =
        some (encodeFile g.records) := by
  constructor
  · obtain ⟨g, hg, hfirst⟩ := h.first_new
    have hne : (compactedFile group kept).name ≠ n := fun heq => by
      have := hlow g hg
      rw [← hfirst, heq] at this
      exact lt_irrefl _ this
    rw [AList.lookup_insert_ne hne]
    exact h.new
  · intro g hg hns
    have hne : g.name ≠ n := fun heq => by
      have := hlow g hg
      rw [← g.first_name, heq] at this
      exact lt_irrefl _ this
    rw [AList.lookup_insert_ne hne]
    exact h.old g hg hns

theorem group_low :
    ∀ g ∈ group, g.first < l.active.first := fun g hg => by
  have := h.wf.closed.of_mem (h.group_mem hg)
  omega

theorem append (hbatch : ∀ r ∈ numberFrom (l.lastRevision + 1) batch, Storable r) :
    Replacing (DiskLog.appendTo dir l.active.name (batchBytes l.lastRevision batch))
      (l.published batch) pre group rest kept ns := by
  rw [appendTo_active h.active]
  have hname := name_published h.wf batch
  obtain ⟨hnew, hold⟩ := h.insert (n := l.active.name)
    (by rw [l.active.first_name]; exact h.group_low)
    (encodeFile (l.published batch).active.records)
  have hclosed : ∀ g ∈ pre ++ rest, g ∈ l.closed := fun g hg => by
    rw [h.closed]
    simp only [mem_append] at hg ⊢
    tauto
  refine ⟨wf_published h.wf batch, fun g hg => ?_, h.closed, h.ne, h.sub, h.left,
    hnew, fun g hg => ?_, hold, fun n hn => ?_⟩
  · rcases mem_append.mp hg with hg | hg
    · exact h.disk g (mem_append_left _ hg)
    · rw [mem_singleton.mp hg]
      exact onDisk_published h.wf
        (h.disk _ (mem_append_right _ (mem_singleton_self _))) hbatch
  · rcases mem_append.mp hg with hg | hg
    · rw [AList.lookup_insert_ne (h.wf.closed_name_ne (hclosed g hg))]
      exact h.others g (mem_append_left _ hg)
    · rw [mem_singleton.mp hg, hname, AList.lookup_insert]
  · have hn' : n ∈ dir := by
      rcases (AList.mem_insert _).mp hn with rfl | hn
      · exact Dir.mem_iff_lookup.mpr ⟨_, h.active⟩
      · exact hn
    rcases h.only n hn' with hn | hn | hn
    · exact Or.inl hn
    · refine Or.inr (Or.inl ?_)
      rw [map_append, map_singleton, hname]
      rwa [map_append, map_singleton] at hn
    · exact Or.inr (Or.inr hn)

theorem create (hne : l.active.records ≠ []) :
    Replacing (dir.insert l.freshName header) l.rotate pre group (rest ++ [l.active]) kept ns := by
  have hcount : l.active.count ≠ 0 := fun h0 => hne (List.length_eq_zero_iff.mp h0)
  have hfresh : l.active.first < l.freshName.first := by
    have hend : l.active.last + 1 = l.active.first + l.active.count :=
      (h.wf.active.dense h.wf.dense).2
    have hlast := h.wf.last
    show l.active.first < l.lastRevision + 1
    omega
  obtain ⟨hnew, hold⟩ := h.insert (n := l.freshName)
    (fun g hg => lt_trans (h.group_low g hg) hfresh) header
  have hrotate := rotate_eq hne
  refine ⟨wf_rotate h.wf, fun g hg => ?_, ?_, h.ne, h.sub, h.left, hnew,
    fun g hg => ?_, hold, fun n hn => ?_⟩
  · rw [files, hrotate] at hg
    rcases mem_append.mp hg with hg | hg
    · exact h.disk g hg
    · rw [mem_singleton.mp hg]
      exact onDisk_newActiveFile _
  · rw [hrotate]
    show l.closed ++ [l.active] = _
    rw [h.closed]
    simp
  · rw [hrotate] at hg
    rcases mem_append.mp hg with hg | hg
    · have hg' : g ∈ pre ++ rest ++ [l.active] := by
        rw [← append_assoc] at hg
        exact hg
      have hin : g ∈ l.files := by
        rw [files, h.closed]
        simp only [mem_append] at hg' ⊢
        tauto
      rw [AList.lookup_insert_ne (h.wf.fresh hcount g hin)]
      exact h.others g hg'
    · rw [mem_singleton.mp hg]
      exact AList.lookup_insert _
  · rw [hrotate]
    rcases (AList.mem_insert _).mp hn with rfl | hn
    · refine Or.inr (Or.inl ?_)
      rw [map_append, map_singleton]
      exact mem_append_right _ (mem_singleton_self _)
    · rcases h.only n hn with hn | hn | hn
      · exact Or.inl hn
      · refine Or.inr (Or.inl ?_)
        rw [map_append, ← append_assoc]
        exact mem_append_left _ hn
      · exact Or.inr (Or.inr hn)

end

end Replacing

/-! ## Compaction in progress -/

/-- The files of a group, as the log has them. -/
def GroupFiles (g : DiskLog.Group) (fs : List LogFile) : Prop := List.Forall₂ Describes g.files fs

/-- The operations that the new file of a group brings about. -/
def groupOps (group : List LogFile) (kept : List (Nat × LogRecord)) : List ArchiverOp :=
  { name := (compactedFile group kept).name } ::
    (replacedNames group kept).map fun n => { name := n, remove := true }

/-- The log with a group of files in its place again. -/
def FilesystemLog.withClosed (l : FilesystemLog) (closed : List LogFile) : FilesystemLog :=
  { l with closed := closed }

/-- Where a compaction stands: the log `l` of the index, the directory, and the log that the
directory recovers to. -/
inductive JobOK (dir : Dir) (l : FilesystemLog) : Option CompactJob → FilesystemLog → Prop
  | idle (hdir : HoldsOnly dir l.files) : JobOK dir l none l
  | measuring {todo : List IndexFile} {measured : List DiskLog.Measured}
      {ms ltodo rest : List LogFile} (hdir : HoldsOnly dir l.files)
      (hclosed : l.closed = ms ++ ltodo ++ rest)
      (hms : List.Forall₂ Describes (measured.map DiskLog.Measured.file) ms)
      (htodo : List.Forall₂ Describes todo ltodo) :
      JobOK dir l (some (.measuring todo measured)) l
  | grouped {todo : List DiskLog.Group} {gs : List (List LogFile)} {pre rest : List LogFile}
      (hdir : HoldsOnly dir l.files) (hclosed : l.closed = pre ++ gs.flatten ++ rest)
      (htodo : List.Forall₂ GroupFiles todo gs) : JobOK dir l (some (.grouped todo)) l
  | renamed {group : List IndexFile} {file : IndexFile} {todo : List DiskLog.Group}
      {pre lgroup rest : List LogFile} {gs : List (List LogFile)} {kept : List (Nat × LogRecord)}
      (hdir : Replacing dir l pre lgroup (gs.flatten ++ rest) kept (replacedNames lgroup kept))
      (hgroup : List.Forall₂ Describes group lgroup)
      (hfile : Describes file (compactedFile lgroup kept))
      (htodo : List.Forall₂ GroupFiles todo gs) :
      JobOK dir l (some (.renamed group file todo))
        (recovered l lgroup kept (replacedNames lgroup kept))
  | replacing {names : List FileName} {ops : List ArchiverOp} {todo : List DiskLog.Group}
      {pre lgroup rest : List LogFile} {gs : List (List LogFile)} {kept : List (Nat × LogRecord)}
      (hclosed : l.closed = pre ++ compactedFile lgroup kept :: (gs.flatten ++ rest))
      (hdir : Replacing dir (l.withClosed (pre ++ lgroup ++ (gs.flatten ++ rest))) pre lgroup
        (gs.flatten ++ rest) kept names)
      (hops : ops <:+ groupOps lgroup kept)
      (htodo : List.Forall₂ GroupFiles todo gs) :
      JobOK dir l (some (.replacing names ops todo))
        (recovered (l.withClosed (pre ++ lgroup ++ (gs.flatten ++ rest))) lgroup kept names)

namespace JobOK

variable {dir : Dir} {l b : FilesystemLog} {job : Option CompactJob}

theorem recovers (h : JobOK dir l job b) (hwf : l.WF) (hdisk : ∀ g ∈ l.files, g.OnDisk) :
    Recovers dir b := by
  cases h with
  | idle hdir | measuring hdir | grouped hdir => exact hdir.recovers hwf hdisk
  | renamed hdir | replacing _ hdir => exact hdir.recovers

theorem recovered_frame (l : FilesystemLog) (group : List LogFile) (kept : List (Nat × LogRecord))
    (ns : List FileName) : (recovered l group kept ns).active = l.active ∧
      (recovered l group kept ns).lastRevision = l.lastRevision := by
  unfold recovered
  split <;> exact ⟨rfl, rfl⟩

/-- The two logs share the active file. -/
theorem frame (h : JobOK dir l job b) : b.active = l.active ∧ b.lastRevision = l.lastRevision := by
  cases h with
  | idle | measuring | grouped => exact ⟨rfl, rfl⟩
  | renamed | replacing => exact recovered_frame _ _ _ _

theorem active (h : JobOK dir l job b) :
    dir.lookup l.active.name = some (encodeFile l.active.records) := by
  cases h with
  | idle hdir | measuring hdir | grouped hdir | renamed hdir | replacing _ hdir => exact hdir.active

theorem recovered_published (l : FilesystemLog) (group : List LogFile)
    (kept : List (Nat × LogRecord)) (ns : List FileName) (batch : List LogRecord) :
    (recovered l group kept ns).published batch =
      recovered (l.published batch) group kept ns := by
  unfold recovered
  split
  · rfl
  · rfl

variable {kept : List (Nat × LogRecord)}

/-- A rotation beside the compaction of a group. -/
theorem compactGroup_rotate {pre group rest : List LogFile} (hwf : l.WF)
    (hclosed : l.closed = pre ++ group ++ rest) (hgroup : group ≠ [])
    (hsub : kept.Sublist (group.flatMap LogFile.records)) (hne : l.active.records ≠ []) :
    (l.compactGroup group kept).rotate = l.rotate.compactGroup group kept := by
  have hafter : l.rotate.closed = pre ++ group ++ (rest ++ [l.active]) := by
    rw [rotate_eq hne]
    show l.closed ++ [l.active] = _
    rw [hclosed]
    simp
  have h1 := (compactGroup_spec hwf hclosed hgroup hsub).1
  have h2 := (compactGroup_spec (wf_rotate hwf) hafter hgroup hsub).1
  have hleft : (l.compactGroup group kept).rotate = { l.compactGroup group kept with
      closed := (l.compactGroup group kept).closed ++ [l.active]
      active := newActiveFile l.lastRevision } :=
    rotate_eq (l := l.compactGroup group kept) hne
  have hright : l.rotate.compactGroup group kept = { l.rotate with
      closed := (l.rotate.compactGroup group kept).closed } := rfl
  rw [hleft, hright, h1, h2, rotate_eq hne]
  simp [compactGroup]

theorem recovered_rotate {pre group rest : List LogFile}
    (hwf : l.WF) (hclosed : l.closed = pre ++ group ++ rest)
    (hgroup : group ≠ []) (hsub : kept.Sublist (group.flatMap LogFile.records))
    (hne : l.active.records ≠ []) (ns : List FileName) :
    (recovered l group kept ns).rotate = recovered l.rotate group kept ns := by
  unfold recovered
  split
  · rfl
  · exact compactGroup_rotate hwf hclosed hgroup hsub hne

/-- A batch is appended to the active file. -/
theorem append (h : JobOK dir l job b) (hwf : l.WF)
    (hbatch : ∀ r ∈ numberFrom (l.lastRevision + 1) batch, Storable r) :
    JobOK (DiskLog.appendTo dir l.active.name (batchBytes l.lastRevision batch))
      (l.published batch) job (b.published batch) := by
  cases h with
  | idle hdir => exact .idle (hdir.append hwf batch)
  | measuring hdir hclosed hms htodo => exact .measuring (hdir.append hwf batch) hclosed hms htodo
  | grouped hdir hclosed htodo => exact .grouped (hdir.append hwf batch) hclosed htodo
  | renamed hdir hgroup hfile htodo =>
    rw [recovered_published]
    exact .renamed (hdir.append hbatch) hgroup hfile htodo
  | replacing hclosed hdir hops htodo =>
    rw [recovered_published]
    exact .replacing hclosed (hdir.append hbatch) hops htodo

/-- The next active file is created. -/
theorem create (h : JobOK dir l job b) (hwf : l.WF) (hne : l.active.records ≠ []) :
    JobOK (dir.insert l.freshName header) l.rotate job b.rotate := by
  have hclosed' : l.rotate.closed = l.closed ++ [l.active] := by rw [rotate_eq hne]
  cases h with
  | idle hdir => exact .idle (hdir.create hwf hne)
  | @measuring _ _ ms ltodo rest hdir hclosed hms htodo =>
    have hrow : l.rotate.closed = ms ++ ltodo ++ (rest ++ [l.active]) := by
      rw [hclosed', hclosed, append_assoc]
    exact .measuring (hdir.create hwf hne) hrow hms htodo
  | @grouped _ gs pre rest hdir hclosed htodo =>
    have hrow : l.rotate.closed = pre ++ gs.flatten ++ (rest ++ [l.active]) := by
      rw [hclosed', hclosed, append_assoc]
    exact .grouped (hdir.create hwf hne) hrow htodo
  | @renamed _ _ _ pre lgroup rest gs kept hdir hgroup hfile htodo =>
    rw [recovered_rotate hdir.wf hdir.closed hdir.ne hdir.sub hne]
    have hdir' := hdir.create hne
    rw [append_assoc] at hdir'
    exact .renamed hdir' hgroup hfile htodo
  | @replacing names ops todo pre lgroup rest gs kept hclosed hdir hops htodo =>
    rw [recovered_rotate hdir.wf hdir.closed hdir.ne hdir.sub hne]
    have hswap : (l.withClosed (pre ++ lgroup ++ (gs.flatten ++ rest))).rotate =
        l.rotate.withClosed (pre ++ lgroup ++ (gs.flatten ++ (rest ++ [l.active]))) := by
      have hne' : (l.withClosed (pre ++ lgroup ++ (gs.flatten ++ rest))).active.records ≠ [] :=
        hne
      rw [rotate_eq hne', rotate_eq hne]
      simp [withClosed]
    have hdir' : Replacing (dir.insert l.freshName header) _ pre lgroup
        (gs.flatten ++ rest ++ [l.active]) kept names := hdir.create hne
    rw [hswap, append_assoc gs.flatten] at hdir'
    rw [hswap]
    refine .replacing ?_ hdir' hops htodo
    rw [hclosed', hclosed]
    simp

end JobOK

end CloudEtcd
