/-
# CloudEtcd.Persistence.DiskCompaction — a compaction on disk keeps every live record, byte for byte.

`Refines.compact` carries `Compact` over from the record-level model: on a log whose directory holds
exactly its files the call succeeds, and the log it leaves is the one that `FilesystemLog.compact`
computes.  What `Read` yields are the encodings of the records (`Refines.readFrom`), so what compaction does
to them can be read off the record-level results.
-/
import CloudEtcd.Persistence.DiskRefines

namespace CloudEtcd

open LogCodec LogFile DiskLog

/-- The directory has these files and no others. -/
structure HoldsOnly (dir : Dir) (fs : List LogFile) : Prop where
  holds : Holds dir fs
  only : ∀ n ∈ dir, ∃ g ∈ fs, g.name = n

/-- The log on disk is that of the record-level log, and its directory has nothing else. -/
structure Refines (d : DiskLog) (l : FilesystemLog) : Prop where
  index : Indexes d l
  wf : l.WF
  dir : HoldsOnly d.dir l.files

/-! ## Measuring and grouping -/

variable {g : DiskLog.Group}

section Groups

variable {d : Dir}

/-- The measurements of a file agree. -/
structure Measures (m : DiskLog.Measured) (m' : FilesystemLog.Measured) : Prop where
  file : Describes m.file m'.file
  liveBytes : m.liveBytes = m'.liveBytes
  dead : m.dead = m'.dead

/-- The groups agree. -/
structure Groups (g : DiskLog.Group) (g' : FilesystemLog.Group) : Prop where
  files : List.Forall₂ Describes g.files g'.files
  bytes : g.bytes = g'.bytes
  dead : g.dead = g'.dead

theorem liveBytes_encoded (rs : List (Nat × LogRecord)) :
    ((encoded rs).map fun r => r.2.length + 4).sum = FilesystemLog.liveBytes rs := by
  simp [encoded, FilesystemLog.liveBytes, Function.comp_def]

theorem Describes.measure {f : IndexFile} {g : LogFile} (h : Describes f g) (hwf : g.WF)
    (hdata : d.lookup g.name = some (encodeFile g.records)) (live : FilesystemLog.LiveFunc) :
    ∃ m, measure d live f = .ok m ∧ Measures m (FilesystemLog.measure live g) := by
  rw [DiskLog.measure, h.liveRecords hwf hdata]
  exact ⟨_, rfl, h, liveBytes_encoded _, rfl⟩

theorem mapM_measure {fs : List IndexFile} {gs : List LogFile} (h : List.Forall₂ Describes fs gs)
    (hwf : ∀ g ∈ gs, g.WF) (hdata : Holds d gs) (live : FilesystemLog.LiveFunc) :
    ∃ ms, fs.mapM (measure d live) = .ok ms ∧
      List.Forall₂ Measures ms (gs.map (FilesystemLog.measure live)) := by
  induction h with
  | nil => exact ⟨[], rfl, .nil⟩
  | cons hfg _ ih =>
    obtain ⟨m, hm, hmeasures⟩ := hfg.measure (hwf _ List.mem_cons_self)
      (hdata _ List.mem_cons_self) live
    obtain ⟨ms, hms, hrest⟩ := ih (fun g hg => hwf g (List.mem_cons_of_mem _ hg))
      fun g hg => hdata g (List.mem_cons_of_mem _ hg)
    refine ⟨m :: ms, ?_, .cons hmeasures hrest⟩
    rw [List.mapM_cons, hm, hms]
    rfl

theorem Groups.empty : Groups DiskLog.Group.empty FilesystemLog.Group.empty := ⟨.nil, rfl, rfl⟩

variable {g' : FilesystemLog.Group}

theorem Groups.add (h : Groups g g')
    {m : DiskLog.Measured} {m' : FilesystemLog.Measured} (hm : Measures m m') :
    Groups (g.add m) (g'.add m') where
  files := List.rel_append h.files (.cons hm.file .nil)
  bytes := by simp only [DiskLog.Group.add, FilesystemLog.Group.add, h.bytes, hm.liveBytes]
  dead := by simp only [DiskLog.Group.add, FilesystemLog.Group.add, h.dead, hm.dead]

theorem Groups.rewritten (h : Groups g g') : g.rewritten = g'.rewritten := by
  obtain ⟨fs, bytes, dead⟩ := g
  obtain ⟨gs, bytes', dead'⟩ := g'
  obtain ⟨hfiles, -, hdead⟩ := h
  simp only at hfiles hdead
  subst hdead
  cases hfiles with
  | nil => rfl
  | cons hfg hrest =>
    cases hrest with
    | nil =>
      simp only [DiskLog.Group.rewritten, FilesystemLog.Group.rewritten, hfg.count]
      rfl
    | cons _ _ => rfl

/-- The grouping loop makes the same groups. -/
theorem groups_eq (rotateBytes : Int) {ms : List DiskLog.Measured}
    {ms' : List FilesystemLog.Measured} (h : List.Forall₂ Measures ms ms') :
    ∀ {g : DiskLog.Group} {g' : FilesystemLog.Group}, Groups g g' →
      List.Forall₂ Groups (groups rotateBytes g ms)
        (FilesystemLog.groups rotateBytes g' ms') := by
  induction h with
  | nil => exact fun hg => .cons hg .nil
  | cons hm _ ih =>
    intro g g' hg
    rw [groups, FilesystemLog.groups, hg.bytes, hm.liveBytes]
    split
    · exact .cons hg (ih (Groups.empty.add hm))
    · exact ih (hg.add hm)

end Groups

/-! ## Rewriting a group -/

section Rewrite

variable {d : DiskLog} {l : FilesystemLog}
  {group : List IndexFile} {lgroup pre post : List LogFile}

variable {kept : List (Nat × LogRecord)}

/-- The swap of the index is the record-level swap. -/
theorem Indexes.swap (h : Indexes d l) (hgroup : List.Forall₂ Describes group lgroup)
    {file : IndexFile} (hfile : Describes file (FilesystemLog.compactedFile lgroup kept)) :
    Indexes (d.swap group file) (l.compactGroup lgroup kept) := by
  have hidx : (d.closed.findIdx fun f => some f.first == group.head?.map IndexFile.first) =
      l.closed.findIdx fun f => some f.first == lgroup.head?.map first := by
    have hmap := congrArg (fun xs => xs.findIdx fun n => some n == lgroup.head?.map first)
      (forall₂_firsts h.closed)
    simpa [List.findIdx_map, Function.comp_def, forall₂_head hgroup] using hmap
  refine ⟨h.opts, ?_, h.active, h.indexed, h.lastRevision⟩
  show List.Forall₂ Describes (d.closed.take _ ++ file :: d.closed.drop _)
    (l.closed.take _ ++ _ :: l.closed.drop _)
  rw [hidx, hgroup.length_eq]
  exact List.rel_append (List.forall₂_take _ h.closed)
    (.cons hfile (List.forall₂_drop _ h.closed))

/-- Writing the new file of a group. -/
theorem Indexes.rewrite (hgroup : List.Forall₂ Describes group lgroup)
    (hwf : ∀ g ∈ lgroup, g.WF) (hdata : Holds d.dir lgroup) (live : FilesystemLog.LiveFunc) :
    ∃ file, Describes file (FilesystemLog.compactedFile lgroup
        ((lgroup.flatMap records).filter (FilesystemLog.isLive live))) ∧
      file.indexed = true ∧
      d.rewrite live group = .ok ({ d with dir := d.dir.insert file.name (encodeFile
        ((lgroup.flatMap records).filter (FilesystemLog.isLive live))) }, file) := by
  have hstorable : ∀ r ∈ (lgroup.flatMap records).filter (FilesystemLog.isLive live),
      Storable r := by
    intro r hr
    obtain ⟨g, hg, hrg⟩ := List.mem_flatMap.mp (List.mem_of_mem_filter hr)
    obtain ⟨f, -, hfg⟩ := forall₂_mem hgroup hg
    exact hfg.storable r hrg
  obtain ⟨hdesc, hbytes⟩ := compactedFile_describes hgroup hstorable
  refine ⟨_, hdesc, rfl, ?_⟩
  rw [DiskLog.rewrite, groupRecords_eq hgroup hwf hdata]
  simp only [hbytes]

/-- The files outside a group start elsewhere. -/
theorem first_ne_of_group (hwf : l.WF) (hclosed : l.closed = pre ++ lgroup ++ post) {g x : LogFile}
    (hg : g ∈ pre ++ post ++ [l.active]) (hx : x ∈ lgroup) : g.first ≠ x.first := by
  have hpair : (pre ++ (lgroup ++ (post ++ [l.active]))).Pairwise
      fun f g : LogFile => f.first < g.first := by
    have := FilesystemLog.firsts_ascend hwf.closed
    rw [hclosed] at this
    simpa using this
  obtain ⟨-, hrest, hcross⟩ := List.pairwise_append.mp hpair
  rw [List.append_assoc] at hg
  rcases List.mem_append.mp hg with hg | hg
  · exact Nat.ne_of_lt (hcross g hg x (List.mem_append_left _ hx))
  · exact Nat.ne_of_gt ((List.pairwise_append.mp hrest).2.2 x hx g hg)

theorem first_compactedFile (hne : lgroup ≠ []) (kept : List (Nat × LogRecord)) :
    ∃ x ∈ lgroup, (FilesystemLog.compactedFile lgroup kept).first = x.first := by
  obtain ⟨x, xs, rfl⟩ := List.exists_cons_of_ne_nil hne
  exact ⟨x, List.mem_cons_self, rfl⟩

/-- The directory after a group was replaced has the new file instead of the group's. -/
theorem HoldsOnly.compactGroup {dir : Dir} (hwf : l.WF) (hdir : HoldsOnly dir l.files)
    (hclosed : l.closed = pre ++ lgroup ++ post) (hne : lgroup ≠ [])
    (hsub : kept.Sublist (lgroup.flatMap records)) :
    let file := FilesystemLog.compactedFile lgroup kept
    HoldsOnly (Dir.removeAll (dir.insert file.name (encodeFile kept))
      ((lgroup.map name).filter (· ≠ file.name))) (l.compactGroup lgroup kept).files := by
  intro file
  have hfiles : (l.compactGroup lgroup kept).files = pre ++ file :: post ++ [l.active] := by
    rw [FilesystemLog.files, (FilesystemLog.compactGroup_spec hwf hclosed hne hsub).1]
    rfl
  have hmem : ∀ g, g ∈ (l.compactGroup lgroup kept).files ↔
      g = file ∨ g ∈ pre ++ post ++ [l.active] := by
    intro g
    rw [hfiles]
    simp only [List.mem_append, List.mem_cons]
    tauto
  have hold : ∀ g, g ∈ l.files ↔ g ∈ lgroup ∨ g ∈ pre ++ post ++ [l.active] := by
    intro g
    rw [FilesystemLog.files, hclosed]
    simp only [List.mem_append]
    tauto
  obtain ⟨x, hx, hfirst⟩ := first_compactedFile hne kept
  have hlookup : ∀ n, (Dir.removeAll (dir.insert file.name (encodeFile kept))
      ((lgroup.map name).filter (· ≠ file.name))).lookup n =
        if n = file.name then some (encodeFile kept)
        else if n ∈ lgroup.map name then none else dir.lookup n := by
    intro n
    rw [Dir.lookup_removeAll]
    by_cases hn : n = file.name
    · subst hn
      simp
    · by_cases hg : n ∈ lgroup.map name
      · simp only [List.mem_filter, hg, hn, ne_eq, not_false_eq_true, decide_true, and_self,
          if_true, if_false]
      · simp only [List.mem_filter, hg, hn, false_and, if_false, AList.lookup_insert_ne hn]
  constructor
  · intro g hg
    rw [hlookup]
    rcases (hmem g).mp hg with rfl | hg
    · rw [if_pos rfl]
      rfl
    · rw [if_neg, if_neg]
      · exact hdir.holds g ((hold g).mpr (Or.inr hg))
      · intro hin
        obtain ⟨y, hy, heq⟩ := List.mem_map.mp hin
        apply first_ne_of_group hwf hclosed hg hy
        rw [← g.first_name, ← heq, y.first_name]
      · intro heq
        apply first_ne_of_group hwf hclosed hg hx
        rw [← g.first_name, heq, first_name, hfirst]
  · intro n hn
    obtain ⟨data, hdata⟩ := Dir.mem_iff_lookup.mp hn
    rw [hlookup] at hdata
    by_cases hnew : n = file.name
    · exact ⟨file, (hmem file).mpr (Or.inl rfl), hnew.symm⟩
    · rw [if_neg hnew] at hdata
      split at hdata
      · cases hdata
      · next hnot =>
        obtain ⟨g, hg, rfl⟩ := hdir.only n (Dir.mem_iff_lookup.mpr ⟨data, hdata⟩)
        rcases (hold g).mp hg with hin | hg
        · exact absurd (List.mem_map_of_mem hin) hnot
        · exact ⟨g, (hmem g).mpr (Or.inr hg), rfl⟩

variable {lg : FilesystemLog.Group}

/-- A flush on disk is a flush.  The files it adds to the index are compacted and indexed. -/
theorem Refines.flush (h : Refines d l) (hg : Groups g lg)
    (hclosed : l.closed = pre ++ lg.files ++ post) (live : FilesystemLog.LiveFunc) :
    ∃ d', flush live d g = .ok d' ∧ Refines d' (FilesystemLog.flush live l lg) ∧
      ∀ f ∈ d'.closed, f ∈ d.closed ∨ f.sparse = true ∧ f.indexed = true := by
  unfold DiskLog.flush FilesystemLog.flush
  rw [hg.rewritten]
  split
  · next hre =>
    have hne := FilesystemLog.ne_nil_of_rewritten hre
    have hin : ∀ x ∈ lg.files, x ∈ l.files := by
      intro x hx
      rw [FilesystemLog.files, hclosed]
      simp [hx]
    have hwfs : ∀ x ∈ lg.files, x.WF := by
      intro x hx
      refine (h.wf.closed.of_mem ?_).1
      rw [hclosed]
      simp [hx]
    obtain ⟨file, hdesc, hindexed, hrewrite⟩ := Indexes.rewrite hg.files hwfs
      (h.dir.holds.subset hin) live
    have hsub : ((lg.files.flatMap records).filter
      (FilesystemLog.isLive live)).Sublist (lg.files.flatMap records) :=
        List.filter_sublist
    have hindex := Indexes.swap (d := { d with dir := d.dir.insert file.name (encodeFile
      ((lg.files.flatMap records).filter (FilesystemLog.isLive live))) })
      ⟨h.index.opts, h.index.closed, h.index.active, h.index.indexed, h.index.lastRevision⟩
      hg.files hdesc
    have hdir := HoldsOnly.compactGroup h.wf h.dir hclosed hne hsub
    rw [hrewrite]
    refine ⟨_, rfl, ⟨?_, (FilesystemLog.compactGroup_spec h.wf hclosed hne hsub).2, ?_⟩, ?_⟩
    · apply enqueue_index
      exact ⟨hindex.opts, hindex.closed, hindex.active, hindex.indexed, hindex.lastRevision⟩
    · rw [enqueue_dir]
      have hnames : replaced g.files file = (lg.files.map name).filter
          (· ≠ (FilesystemLog.compactedFile lg.files
            ((lg.files.flatMap records).filter (FilesystemLog.isLive live))).name) := by
        rw [replaced, forall₂_names hg.files, hdesc.name]
      show HoldsOnly (Dir.removeAll (d.dir.insert file.name _) _) _
      rw [hnames, hdesc.name]
      exact hdir
    · intro f hf
      rw [enqueue_closed] at hf
      rcases List.mem_append.mp hf with hf | hf
      · exact Or.inl (List.mem_of_mem_take hf)
      · rcases List.mem_cons.mp hf with rfl | hf
        · exact Or.inr ⟨hdesc.sparse, hindexed⟩
        · exact Or.inl (List.mem_of_mem_drop hf)
  · exact ⟨d, rfl, h, fun f hf => Or.inl hf⟩

/-- A flush puts the outcome of the group in its place. -/
theorem flush_closed (hwf : l.WF)
    (hclosed : l.closed = pre ++ lg.files ++ post) (live : FilesystemLog.LiveFunc) :
    (FilesystemLog.flush live l lg).closed = pre ++ lg.outcome live ++ post := by
  unfold FilesystemLog.flush FilesystemLog.Group.outcome
  split
  · next hre =>
    rw [(FilesystemLog.compactGroup_spec hwf hclosed (FilesystemLog.ne_nil_of_rewritten hre)
      List.filter_sublist).1]
    simp
  · exact hclosed

/-- The loop over the groups. -/
theorem Refines.foldlM_flush (live : FilesystemLog.LiveFunc) {gs : List DiskLog.Group}
    {lgs : List FilesystemLog.Group} (hgs : List.Forall₂ Groups gs lgs) :
    ∀ {d : DiskLog} {l : FilesystemLog} {pre : List LogFile}, Refines d l →
      l.closed = pre ++ lgs.flatMap FilesystemLog.Group.files ++ post →
      ∃ d', gs.foldlM (DiskLog.flush live) d = .ok d' ∧
        Refines d' (lgs.foldl (FilesystemLog.flush live) l) ∧
        ∀ f ∈ d'.closed, f ∈ d.closed ∨ f.sparse = true ∧ f.indexed = true := by
  induction hgs with
  | nil => exact fun h _ => ⟨_, rfl, h, fun f hf => Or.inl hf⟩
  | @cons g lg gs lgs hg _ ih =>
    intro d l pre h hclosed
    rw [List.flatMap_cons] at hclosed
    have hclosed' : l.closed = pre ++ lg.files ++ (lgs.flatMap FilesystemLog.Group.files ++
      post) := by simpa using hclosed
    obtain ⟨d₁, hd₁, h₁, hnew₁⟩ := h.flush hg hclosed' live
    -- The group has made room for its outcome, and the others stand where they stood.
    have hstep := flush_closed h.wf hclosed' live
    rw [← List.append_assoc] at hstep
    obtain ⟨d₂, hd₂, h₂, hnew₂⟩ := ih h₁ hstep
    refine ⟨d₂, ?_, h₂, fun f hf => ?_⟩
    · rw [List.foldlM_cons, hd₁]
      exact hd₂
    · rcases hnew₂ f hf with hf | hf
      · exact hnew₁ f hf
      · exact Or.inr hf

end Rewrite

/-- `Compact` on disk succeeds and is `Compact`. -/
theorem Refines.compact {d : DiskLog} {l : FilesystemLog} (h : Refines d l) (through : Nat)
    (live : FilesystemLog.LiveFunc) :
    ∃ d', d.compact through live = .ok d' ∧ Refines d' (l.compact through live) ∧
      ∀ f ∈ d'.closed, f ∈ d.closed ∨ f.sparse = true ∧ f.indexed = true := by
  have heligible : List.Forall₂ Describes (d.eligible through) (l.eligible through) :=
    List.rel_filter (fun f g hfg => by simp [hfg.last]) h.index.closed
  have hin : ∀ g ∈ l.eligible through, g ∈ l.closed := fun g hg => List.mem_of_mem_filter hg
  obtain ⟨ms, hms, hmeasures⟩ := mapM_measure heligible
    (fun g hg => (h.wf.closed.of_mem (hin g hg)).1)
    (h.dir.holds.subset fun g hg => List.mem_append_left _ (hin g hg)) live
  have hgroups := groups_eq d.opts.rotateBytes hmeasures Groups.empty
  have hclosed : l.closed = [] ++ (l.compactionGroups through live).flatMap
      FilesystemLog.Group.files ++ l.ineligible through := by
    rw [List.nil_append, FilesystemLog.flatMap_compactionGroups,
      FilesystemLog.eligible_append_ineligible h.wf]
  rw [h.index.opts] at hgroups
  obtain ⟨d', hd', hrefines, hnew⟩ := Refines.foldlM_flush live hgroups h hclosed
  refine ⟨d', ?_, hrefines, hnew⟩
  rw [DiskLog.compact, hms, h.index.opts]
  exact hd'

/-! ## What `Read` yields -/

/-- A file that is skipped, or is whole. -/
theorem readFile_eq {dir : Dir} {f : IndexFile} {g : LogFile} {fromRevision : Nat} (h : Describes f g)
    (hwf : g.WF) (hdata : (f.count = 0 ∨ f.last < fromRevision) ∨
      dir.lookup g.name = some (encodeFile g.records)) :
    readFile dir fromRevision f =
      .ok (encoded (g.records.filter fun r => fromRevision ≤ r.1)) := by
  unfold readFile
  split
  · next hskip =>
    have hnone : g.records.filter (fun r => decide (fromRevision ≤ r.1)) = [] := by
      rw [List.filter_eq_nil_iff]
      intro r hr
      rcases hskip with hcount | hlast
      · rw [h.count, List.length_eq_zero_iff] at hcount
        rw [hcount] at hr
        cases hr
      · have := (hwf.bounds r hr).2
        rw [h.last] at hlast
        simp only [decide_eq_true_eq]
        omega
    rw [hnone]
    rfl
  · next hskip =>
    have hfile : fileData dir f = .ok (encodeFile g.records) := by
      rw [fileData, h.name, hdata.resolve_left hskip]
      simp [h.size]
    rw [hfile]
    simp only [offsets_encodeFile h.storable]
    have hbytes := bytes_spansFrom header [] g.records
    rw [List.append_nil] at hbytes
    rw [show encodeFile g.records = header ++ g.records.flatMap write from rfl, hbytes]
    simp [encoded, List.zip_map', List.filter_map, Function.comp_def]

/-- `Read` yields the encodings of the records. -/
theorem Refines.readFrom {d : DiskLog} {l : FilesystemLog} (h : Refines d l) (fromRevision : Nat) :
    d.readFrom fromRevision = .ok (encoded (l.records.filter fun r => fromRevision ≤ r.1)) := by
  have hall : ∀ {fs : List IndexFile} {gs : List LogFile}, List.Forall₂ Describes fs gs →
      (∀ g ∈ gs, g.WF) → Holds d.dir gs →
      (fs.mapM (readFile d.dir fromRevision)).map List.flatten =
        .ok (encoded ((gs.flatMap records).filter fun r => fromRevision ≤ r.1)) := by
    intro fs gs hfs
    induction hfs with
    | nil => exact fun _ _ => rfl
    | cons hfg _ ih =>
      intro hwf hdata
      have hrest := ih (fun g hg => hwf g (List.mem_cons_of_mem _ hg))
        fun g hg => hdata g (List.mem_cons_of_mem _ hg)
      rw [List.mapM_cons, readFile_eq hfg (hwf _ List.mem_cons_self)
        (Or.inr (hdata _ List.mem_cons_self))]
      cases hm : List.mapM (readFile d.dir fromRevision) _ with
      | error e =>
        rw [hm] at hrest
        cases hrest
      | ok rest =>
        rw [hm] at hrest
        have hflat := Except.ok.inj hrest
        show Except.ok _ = _
        simp [hflat, encoded]
  refine hall h.index.files (fun g hg => ?_) h.dir.holds
  rcases List.mem_append.mp hg with hg | hg
  · exact (h.wf.closed.of_mem hg).1
  · obtain rfl := List.mem_singleton.mp hg
    exact h.wf.active

end CloudEtcd
