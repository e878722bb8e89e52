/-
# CloudEtcd.LogSystem.Recovery — what `open` makes of a directory.

A directory `Recovers` to a log when the files that `listFiles` keeps are the log's, each holds its
records, and at most the last ends in a torn record.  `openLog` then succeeds with that log
(`Recovers.openLog`), which refines the record-level model again, and the operations it queues are
known.
-/
import CloudEtcd.LogSystem.Model
import CloudEtcd.Persistence.DiskCompaction

namespace CloudEtcd

open LogCodec LogFile

/-! ## Opening the files -/

/-- A file whose records can be on disk. -/
structure LogFile.OnDisk (g : LogFile) : Prop where
  wf : g.WF
  storable : ∀ r ∈ g.records, Storable r
  size : g.size = (encodeFile g.records).length

variable {g : LogFile}

theorem Describes.onDisk {f : IndexFile} (h : Describes f g) (hwf : g.WF) :
    g.OnDisk := ⟨hwf, h.storable, h.sizes.trans h.size⟩

/-- The index entry that `open` makes for a file. -/
def openedEntry (isLast archived : Bool) (g : LogFile) : IndexFile where
  first := g.first
  last := g.last
  sparse := g.sparse
  count := g.records.length
  size := (encodeFile g.records).length
  archived := archived
  indexed := isLast && !g.sparse
  spans := if isLast && !g.sparse then spansFrom header.length g.records else []

theorem openedEntry_describes (h : g.OnDisk) (isLast archived : Bool) :
    Describes (openedEntry isLast archived g) g where
  first := rfl
  last := rfl
  sparse := rfl
  count := rfl
  size := rfl
  sizes := h.size
  storable := h.storable
  plain := fun _ => rfl
  spans := by
    intro hi
    have hb : (isLast && !g.sparse) = true := hi
    refine ⟨by simp [openedEntry, hb], fun hs => ?_⟩
    simp [hs] at hb

/-- The revisions of a file are those its name announces. -/
theorem indexEntry_eq (h : g.OnDisk) (hpos : 1 ≤ g.first) (isLast archived : Bool) :
    DiskLog.indexEntry isLast archived g.name
      ⟨spansFrom header.length g.records, g.records.map Prod.fst, (encodeFile g.records).length⟩ =
        .ok (openedEntry isLast archived g) := by
  obtain ⟨first, last, sparse, records, size⟩ := g
  cases sparse with
  | true =>
    have hok : (∀ r ∈ records.map Prod.fst, first ≤ r ∧ r ≤ last) ∧
        (records.map Prod.fst).Pairwise (· < ·) := by
      refine ⟨fun r hr => ?_, List.pairwise_map.mpr h.wf.ascending⟩
      obtain ⟨x, hx, rfl⟩ := List.mem_map.mp hr
      exact h.wf.bounds x hx
    simp only [name, if_true, DiskLog.indexEntry, if_pos hok]
    simp [openedEntry]
  | false =>
    obtain ⟨hrange, hlast⟩ := h.wf.dense rfl
    have hrange' : records.map Prod.fst = List.range' first (records.map Prod.fst).length := by
      rw [List.length_map]
      exact hrange
    have hend : first + records.length - 1 = last := by
      change last + 1 = first + records.length at hlast
      omega
    simp only [name, Bool.false_eq_true, if_false, DiskLog.indexEntry, if_pos hrange']
    simp [openedEntry, hend]

variable {d : Dir}

/-- A file with nothing after its records. -/
theorem openFile_whole (h : g.OnDisk) (hpos : 1 ≤ g.first)
    (hdata : d.lookup g.name = some (encodeFile g.records)) (isLast archived : Bool) :
    DiskLog.openFile isLast archived g.name d = (d, .ok (openedEntry isLast archived g)) := by
  have hscan := scan_encodeFile h.storable tornTail_nil
  rw [List.append_nil] at hscan
  simp only [DiskLog.openFile, hdata, Option.getD_some, hscan, lt_irrefl, if_false,
    indexEntry_eq h hpos]

/-- The last file, dense, with a torn tail: the tail is cut off. -/
theorem openFile_torn (h : g.OnDisk) (hpos : 1 ≤ g.first)
    (hdense : g.sparse = false) {tail : Bytes} (htail : TornTail tail)
    (hdata : d.lookup g.name = some (encodeFile g.records ++ tail)) (archived : Bool) :
    ∃ d', DiskLog.openFile true archived g.name d = (d', .ok (openedEntry true archived g)) ∧
      ∀ n, d'.lookup n = if n = g.name then some (encodeFile g.records) else d.lookup n := by
  have hscan := scan_encodeFile h.storable htail
  have hsparse : g.name.isSparse = false := by simp [name, hdense, FileName.isSparse]
  by_cases hnil : tail = []
  · subst hnil
    rw [List.append_nil] at hdata
    refine ⟨d, openFile_whole h hpos hdata true archived, fun n => ?_⟩
    split
    · next hn => rw [hn, hdata]
    · rfl
  · have hlt : (encodeFile g.records).length < (encodeFile g.records ++ tail).length := by
      have := List.length_pos_of_ne_nil hnil
      rw [List.length_append]
      omega
    refine ⟨d.insert g.name (encodeFile g.records), ?_, fun n => ?_⟩
    · simp only [DiskLog.openFile, hdata, Option.getD_some, hscan, if_pos hlt, hsparse,
        indexEntry_eq h hpos]
      simp
    · by_cases hn : n = g.name
      · subst hn
        simp [AList.lookup_insert]
      · simp [hn, AList.lookup_insert_ne hn]

/-- The loop of `open` over closed files that are followed by others. -/
theorem openFiles_row {fs : List LogFile} (hdisk : ∀ g ∈ fs, g.OnDisk) (hdata : Holds d fs)
    (archived : FileName → Bool) (rest : List (FileName × Bool)) (hrest : rest ≠ []) :
    ∀ {want next : Nat}, 1 ≤ want → Tiled want fs next →
      DiskLog.openFiles d want (fs.map (fun g => (g.name, archived g.name)) ++ rest) =
        match DiskLog.openFiles d next rest with
        | (d', .error e) => (d', .error e)
        | (d', .ok gs) =>
          (d', .ok (fs.map (fun g => openedEntry false (archived g.name) g) ++ gs)) := by
  induction fs with
  | nil =>
    intro want next _ htiled
    cases htiled
    rw [List.map_nil, List.nil_append]
    cases DiskLog.openFiles d want rest with
    | mk d' result => cases result <;> rfl
  | cons g fs ih =>
    intro want next hwant htiled
    obtain ⟨hfirst, hle, -, htail⟩ := htiled
    have hlast : (fs.map (fun g => (g.name, archived g.name)) ++ rest).isEmpty = false := by
      cases fs with
      | nil =>
        obtain ⟨x, xs, rfl⟩ := List.exists_cons_of_ne_nil hrest
        rfl
      | cons _ _ => rfl
    have hopen := openFile_whole (hdisk g List.mem_cons_self) (hfirst ▸ hwant)
      (hdata g List.mem_cons_self) false (archived g.name)
    have htailEq := ih (fun x hx => hdisk x (List.mem_cons_of_mem _ hx))
      (fun x hx => hdata x (List.mem_cons_of_mem _ hx)) (by omega) htail
    rw [List.map_cons, List.cons_append, DiskLog.openFiles, hlast, hopen]
    have hwantEq : (openedEntry false (archived g.name) g).first = want := hfirst
    have hnextEq : (openedEntry false (archived g.name) g).last + 1 = g.last + 1 := rfl
    simp only [hwantEq, ne_eq, not_true_eq_false, if_false, hnextEq, htailEq]
    cases DiskLog.openFiles d next rest with
    | mk d' result => cases result <;> rfl

/-! ## A directory that can be opened -/

/-- The files that `listFiles` keeps are those of the log; the last may end in a torn record. -/
structure Recovers (dir : Dir) (b : FilesystemLog) : Prop where
  wf : b.WF
  disk : ∀ g ∈ b.files, g.OnDisk
  kept : keepFiles none dir.names = b.files.map name
  closed : Holds dir b.closed
  active : ∃ tail, TornTail tail ∧
    dir.lookup b.active.name = some (encodeFile b.active.records ++ tail)

/-- Every archived file is in the directory or superseded by a file there. -/
def Within (files : List LogFile) (n : FileName) : Prop :=
  ∃ f ∈ files, f.name = n ∨ f.name.supersedes n.first = true

/-- The removals that `reconcileArchive` queues. -/
def removals (archive : Dir) (files : List LogFile) : List ArchiverOp :=
  (archive.names.filter (· ∉ files.map name)).map fun n => { name := n, remove := true }

/-- The uploads that `open` queues. -/
def uploads (archive : Dir) (files : List LogFile) : List ArchiverOp :=
  (files.filter fun g => g.name ∉ archive).map fun g => { name := g.name }

theorem reconcileNames_eq {files : List LogFile} {names : List FileName}
    (h : ∀ n ∈ names, Within files n) :
    DiskLog.reconcileNames (files.map name) names =
      .ok ((names.filter (· ∉ files.map name)).map
        fun n => { name := n, remove := true }) := by
  induction names with
  | nil => rfl
  | cons n names ih =>
    have hrest := ih fun m hm => h m (List.mem_cons_of_mem _ hm)
    rw [DiskLog.reconcileNames]
    split
    · next hin =>
      rw [hrest, List.filter_cons_of_neg (by simpa using hin)]
    · next hout =>
      obtain ⟨f, hf, heq | hsup⟩ := h n List.mem_cons_self
      · exact absurd (List.mem_map.mpr ⟨f, hf, heq⟩) hout
      · have hany : (files.map name).any (·.supersedes n.first) = true :=
          List.any_eq_true.mpr ⟨f.name, List.mem_map_of_mem hf, hsup⟩
        rw [if_pos hany, hrest, List.filter_cons_of_pos (by simpa using hout)]
        rfl

namespace Recovers

variable {dir : Dir} {b : FilesystemLog}

theorem lookup_listDir (h : Recovers dir b) (hg : g ∈ b.files) :
    (listDir dir).1.lookup g.name = dir.lookup g.name := by
  rw [CloudEtcd.lookup_listDir, if_pos]
  show g.name ∈ keepFiles none dir.names
  rw [h.kept]
  exact List.mem_map_of_mem hg

theorem active_mem_files : b.active ∈ b.files :=
  List.mem_append_right _ (List.mem_singleton_self _)

theorem holds_listDir (h : Recovers dir b) : Holds (listDir dir).1 b.closed := fun g hg => by
  rw [h.lookup_listDir (List.mem_append_left _ hg)]
  exact h.closed g hg

/-- The entries that `open` makes for the files of the log. -/
def opened (b : FilesystemLog) (archived : FileName → Bool) : List IndexFile :=
  b.closed.map (fun g => openedEntry false (archived g.name) g) ++
    [openedEntry true (archived b.active.name) b.active]

/-- The loop over the files: a torn tail is cut off. -/
theorem openFiles (h : Recovers dir b) (archived : FileName → Bool) :
    ∃ d, DiskLog.openFiles (listDir dir).1 1 (b.files.map fun g => (g.name, archived g.name)) =
        (d, .ok (opened b archived)) ∧
      ∀ n, d.lookup n = if n = b.active.name then some (encodeFile b.active.records)
        else (listDir dir).1.lookup n := by
  obtain ⟨tail, htail, hdata⟩ := h.active
  obtain ⟨d, hopen, hlookup⟩ := openFile_torn (d := (listDir dir).1) (h.disk _ active_mem_files)
    h.wf.closed.le h.wf.dense htail (by rw [h.lookup_listDir active_mem_files, hdata])
    (archived b.active.name)
  have hrow := openFiles_row (fun g hg => h.disk g (List.mem_append_left _ hg)) h.holds_listDir
    archived [(b.active.name, archived b.active.name)] (by simp) le_rfl h.wf.closed
  have hstart : (openedEntry true (archived b.active.name) b.active).first = b.active.first := rfl
  refine ⟨d, ?_, hlookup⟩
  rw [FilesystemLog.files, List.map_append, List.map_singleton, hrow, DiskLog.openFiles]
  simp only [List.isEmpty_nil, hopen, hstart, ne_eq, not_true_eq_false, if_false,
    DiskLog.openFiles, opened]

/-- The end of `open`: the last file is neither archived nor compacted, and is appended to again. -/
theorem finishOpen (h : Recovers dir b) (opts : Options) (archiving : Bool) (d : Dir)
    (ops : List ArchiverOp) (archived : FileName → Bool) (hnot : archived b.active.name = false) :
    DiskLog.createdName (opened b archived) = none ∧
    DiskLog.finishOpen opts archiving d ops (opened b archived) = {
      opts := opts
      archiving := archiving
      dir := d
      closed := b.closed.map fun g => openedEntry false (archived g.name) g
      active := openedEntry true (archived b.active.name) b.active
      lastRevision := b.active.last
      queue := ops ++ if archiving then (b.closed.filter fun g => !archived g.name).map
        fun g => ({ name := g.name } : ArchiverOp) else [] } := by
  have hdense : (openedEntry true (archived b.active.name) b.active).sparse = false := h.wf.dense
  have harch : (openedEntry true (archived b.active.name) b.active).archived = false := hnot
  refine ⟨DiskLog.createdName_none harch hdense, ?_⟩
  rw [DiskLog.finishOpen, opened, List.getLast?_concat]
  simp only [hdense, harch, Bool.false_eq_true, or_self, if_false, List.dropLast_concat]
  rw [List.filter_map, List.map_map]
  rfl

/-- The log that `open` returns is the one the directory recovers to. -/
theorem refines (h : Recovers dir b) (opts : Options) (archiving : Bool)
    (queue : List ArchiverOp) (archived : FileName → Bool)
    (hlookup : ∀ n, d.lookup n = if n = b.active.name then some (encodeFile b.active.records)
      else (listDir dir).1.lookup n) :
    Refines {
      opts := opts
      archiving := archiving
      dir := d
      closed := b.closed.map fun g => openedEntry false (archived g.name) g
      active := openedEntry true (archived b.active.name) b.active
      lastRevision := b.active.last
      queue := queue } { b with opts := opts } := by
  refine ⟨⟨rfl, ?_, openedEntry_describes (h.disk _ active_mem_files) _ _, ?_, h.wf.last⟩,
    ⟨h.wf.closed, h.wf.active, h.wf.dense, h.wf.last⟩, ?_, ?_⟩
  · show List.Forall₂ Describes (b.closed.map _) b.closed
    rw [List.forall₂_map_left_iff, List.forall₂_same]
    exact fun g hg => openedEntry_describes (h.disk g (List.mem_append_left _ hg)) _ _
  · show (true && !b.active.sparse) = true
    rw [h.wf.dense]
    rfl
  · intro g hg
    show d.lookup g.name = _
    rw [hlookup]
    split
    · next heq =>
      have hsame : g = b.active := by
        apply h.wf.file_eq hg active_mem_files
        rw [← g.first_name, heq, b.active.first_name]
      rw [hsame]
    · next hne =>
      rcases List.mem_append.mp hg with hc | ha
      · exact h.holds_listDir g hc
      · exact absurd (congrArg name (List.mem_singleton.mp ha)) hne
  · intro n hn
    change n ∈ d at hn
    obtain ⟨data, hdata⟩ := Dir.mem_iff_lookup.mp hn
    rw [hlookup] at hdata
    by_cases heq : n = b.active.name
    · exact ⟨b.active, active_mem_files, heq.symm⟩
    · rw [if_neg heq, CloudEtcd.lookup_listDir] at hdata
      split at hdata
      · next hin =>
        change n ∈ keepFiles none dir.names at hin
        rw [h.kept] at hin
        obtain ⟨g, hg, hname⟩ := List.mem_map.mp hin
        exact ⟨g, hg, hname⟩
      · cases hdata

/-- `open` succeeds and returns the log. -/
theorem openLog (h : Recovers dir b) (opts : Options) {archiving : Bool} {archive : Dir}
    (hwithin : archiving = true → ∀ n ∈ archive, Within b.closed n)
    (hactive : b.active.name ∉ archive) :
    ∃ log, DiskLog.openLog opts archiving archive dir = (log.dir, .ok log) ∧
      Refines log { b with opts := opts.withDefaults } ∧ log.archiving = archiving ∧
      log.queue = if archiving then removals archive b.files ++ uploads archive b.closed
        else [] := by
  have hkept : (listDir dir).2 = b.files.map name := h.kept
  cases archiving with
  | false =>
    obtain ⟨d, hopen, hlookup⟩ := h.openFiles fun _ => false
    obtain ⟨hcreated, hfinish⟩ := h.finishOpen opts.withDefaults false d [] (fun _ => false) rfl
    refine ⟨_, ?_, h.refines opts.withDefaults false [] (fun _ => false) hlookup, rfl, rfl⟩
    simp only [DiskLog.openLog, Bool.false_eq_true, if_false]
    rw [show (listDir dir).2.map (fun n => (n, false)) = b.files.map fun g => (g.name, false) by
      rw [hkept, List.map_map]
      rfl, hopen]
    simp only [hcreated, Option.filter_none, hfinish]
    rfl
  | true =>
    have hne : b.files.map name ≠ [] := by simp [FilesystemLog.files]
    have hwithin' : ∀ n ∈ archive.names, Within b.files n := fun n hn => by
      obtain ⟨f, hf, hor⟩ := hwithin rfl n (Dir.mem_names.mp hn)
      exact ⟨f, List.mem_append_left _ hf, hor⟩
    obtain ⟨d, hopen, hlookup⟩ := h.openFiles fun n => decide (n ∈ archive)
    obtain ⟨hcreated, hfinish⟩ := h.finishOpen opts.withDefaults true d (removals archive b.files)
      (fun n => decide (n ∈ archive)) (by simpa using hactive)
    refine ⟨_, ?_, h.refines opts.withDefaults true
      (removals archive b.files ++ uploads archive b.closed) (fun n => decide (n ∈ archive))
      hlookup, rfl, rfl⟩
    simp only [DiskLog.openLog, if_true, DiskLog.reconcileArchive, hkept, hne, false_and,
      if_false, reconcileNames_eq hwithin', List.map_map]
    rw [show b.files.map ((fun n => (n, decide (n ∈ archive))) ∘ name) =
      b.files.map fun g => (g.name, decide (g.name ∈ archive)) from rfl, hopen]
    simp only [hcreated, Option.filter_none]
    rw [show (archive.names.filter (· ∉ b.files.map name)).map
      (fun n => ({ name := n, remove := true } : ArchiverOp)) = removals archive b.files from rfl,
      hfinish]
    simp [uploads]

/-- Without an archive. -/
theorem openLog_plain (h : Recovers dir b) (opts : Options) :
    ∃ log, DiskLog.openLog opts false ∅ dir = (log.dir, .ok log) ∧
      Refines log { b with opts := opts.withDefaults } := by
  have hnone : b.active.name ∉ (∅ : Dir) := AList.notMem_empty _
  obtain ⟨log, hopen, hrefines, -⟩ :=
    h.openLog opts (fun harch : false = true => absurd harch Bool.false_ne_true) hnone
  exact ⟨log, hopen, hrefines⟩

end Recovers

end CloudEtcd
