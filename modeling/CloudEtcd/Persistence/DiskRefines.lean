/-
# CloudEtcd.Persistence.DiskRefines — the log on disk refines the log of records.

An index entry `Describes` a file of the record-level model when range, count and size are those of its
records, and when its spans, once it is indexed, are where the encoding puts the records.  A
directory `Holds` files when it has the encoding of each under its name.  Under these two the bytes
can be forgotten: loading a file, asking which of its records are live, measuring and grouping,
rewriting a group, committing and rotating do what the record-level functions do.
-/
import CloudEtcd.Persistence.DiskLog
import CloudEtcd.Persistence.CompactFiles
import CloudEtcd.Persistence.Reopen

namespace CloudEtcd

open FilesystemLog

variable {gs : List LogFile} {fs : List IndexFile}

open LogCodec

/-- The name of a file. -/
def LogFile.name (f : LogFile) : FileName :=
  if f.sparse then .sparse f.first f.last else .dense f.first

theorem LogFile.first_name (f : LogFile) : f.name.first = f.first := by
  unfold LogFile.name
  split <;> rfl

/-- Records as they stand in a file, with their revisions. -/
def encoded (rs : List (Nat × LogRecord)) : List (Nat × Bytes) :=
  rs.map fun r => (r.1, encodeRecord r.1 r.2)

theorem length_encodeFile (rs : List (Nat × LogRecord)) :
    (encodeFile rs).length = header.length + appendedSize rs := by
  rw [encodeFile, List.length_append, List.length_flatMap]
  rfl

/-! ## One file -/

/-- The index entry describes the file. -/
structure Describes (f : IndexFile) (g : LogFile) : Prop where
  first : f.first = g.first
  last : f.last = g.last
  sparse : f.sparse = g.sparse
  count : f.count = g.records.length
  size : f.size = (encodeFile g.records).length
  sizes : g.size = f.size
  storable : ∀ r ∈ g.records, Storable r
  plain : g.sparse = false → f.revisions = []
  spans : f.indexed = true → f.spans = spansFrom header.length g.records ∧
    (g.sparse = true → f.revisions = g.records.map Prod.fst)

namespace Describes

variable {f : IndexFile} {g : LogFile} {d : Dir}

section

variable (h : Describes f g)
include h

theorem name : f.name = g.name := by
  simp only [IndexFile.name, LogFile.name, h.first, h.last, h.sparse]

/-- `loadLocked` indexes the file and changes nothing else. -/
theorem load (hdata : d.lookup g.name = some (encodeFile g.records)) :
    ∃ f', DiskLog.load d f = .ok (f', encodeFile g.records) ∧ Describes f' g ∧
      f'.indexed = true ∧ f'.archived = f.archived := by
  have hfile : DiskLog.fileData d f = .ok (encodeFile g.records) := by
    rw [DiskLog.fileData, h.name, hdata]
    simp [h.size]
  unfold DiskLog.load
  rw [hfile]
  simp only
  cases hindexed : f.indexed with
  | true => exact ⟨f, rfl, h, hindexed, rfl⟩
  | false =>
    rw [if_neg Bool.false_ne_true, offsets_encodeFile h.storable]
    refine ⟨_, rfl, ⟨h.first, h.last, h.sparse, h.count, h.size, h.sizes, h.storable, ?_, ?_⟩,
      rfl, rfl⟩
    · intro hs
      simp [h.sparse, hs, h.plain hs]
    · intro _
      exact ⟨rfl, fun hs => by simp [h.sparse, hs]⟩

/-- The revision of record `i`. -/
theorem revisionAt (hwf : g.WF) (hi : f.indexed = true) {i : Nat} (hlt : i < g.records.length) :
    f.revisionAt i = g.records[i].1 := by
  unfold IndexFile.revisionAt
  cases hs : g.sparse with
  | false =>
    rw [h.plain hs]
    show f.first + i = _
    rw [hwf.revision_at hs hlt, h.first]
  | true =>
    have hrev := (h.spans hi).2 hs
    split
    · next hnil =>
      rw [hnil] at hrev
      rw [List.map_eq_nil_iff.mp hrev.symm] at hlt
      cases hlt
    · rw [hrev]
      simp [List.getD, hlt]

/-- The spans of an indexed file lead to its records. -/
theorem encodedRecords (hwf : g.WF) (hi : f.indexed = true) :
    DiskLog.encodedRecords f (encodeFile g.records) = encoded g.records := by
  have hbytes := bytes_spansFrom header [] g.records
  rw [List.append_nil] at hbytes
  have hspans := (h.spans hi).1
  refine List.ext_getElem (by simp [DiskLog.encodedRecords, hspans, encoded]) fun i h1 h2 => ?_
  have hlt : i < g.records.length := by simpa [encoded] using h2
  have hi' : i < f.spans.length := by simpa [hspans] using hlt
  have hspan : f.spans[i].bytes (encodeFile g.records) =
      encodeRecord g.records[i].1 g.records[i].2 := by
    have := congrArg (fun xs => xs[i]?) hbytes
    simpa [hspans, hlt, encodeFile] using this
  simp only [DiskLog.encodedRecords, List.getElem_mapIdx, hspan, encoded, List.getElem_map,
    h.revisionAt hwf hi hlt]

end

end Describes

/-! ## Live records -/

section Live

variable {live : FilesystemLog.LiveFunc} {d : Dir}

theorem anyLive_decoded (revision : Nat) (events : List Event) :
    DiskLog.anyLive live revision (events.map decodedEvent) =
      .ok (events.any fun ev => live ev.kv.key revision) := by
  induction events with
  | nil => rfl
  | cons ev events ih =>
    rw [List.map_cons, DiskLog.anyLive]
    show (if live ev.kv.key revision then Except.ok true
      else DiskLog.anyLive live revision (events.map decodedEvent)) = _
    rw [ih]
    cases hl : live ev.kv.key revision <;> simp [hl]

/-- The live records are found by decoding them. -/
theorem keepLive_encoded {rs : List (Nat × LogRecord)} (hrs : ∀ r ∈ rs, Storable r) :
    DiskLog.keepLive live (encoded rs) =
      .ok (encoded (rs.filter (isLive live)),
        (rs.filter fun r => !isLive live r).length) := by
  induction rs with
  | nil => rfl
  | cons r rs ih =>
    have hr := hrs r List.mem_cons_self
    have hrest := ih fun x hx => hrs x (List.mem_cons_of_mem _ hx)
    show DiskLog.keepLive live ((r.1, encodeRecord r.1 r.2) :: encoded rs) = _
    rw [DiskLog.keepLive, decodeAlias_encodeRecord hr.2.2]
    simp only [anyLive_decoded, hrest]
    cases hl : isLive live r with
    | true =>
      rw [isLive] at hl
      simp [hl, isLive, encoded]
    | false =>
      rw [isLive] at hl
      simp [hl, isLive]

/-- `liveRecords` of a file that the directory holds. -/
theorem Describes.liveRecords {f : IndexFile} {g : LogFile} (h : Describes f g) (hwf : g.WF)
    (hdata : d.lookup g.name = some (encodeFile g.records)) :
    DiskLog.liveRecords d live f =
      .ok (encoded (g.records.filter (isLive live)),
        (measure live g).dead) := by
  obtain ⟨f', hload, hdesc, hindexed, -⟩ := h.load hdata
  rw [DiskLog.liveRecords, hload]
  show DiskLog.keepLive live (DiskLog.encodedRecords f' (encodeFile g.records)) = _
  rw [hdesc.encodedRecords hwf hindexed, keepLive_encoded h.storable]
  rfl

/-- The live records of a group of files. -/
theorem groupRecords_eq (h : List.Forall₂ Describes fs gs)
    (hwf : ∀ g ∈ gs, g.WF) (hdata : ∀ g ∈ gs, d.lookup g.name = some (encodeFile g.records)) :
    DiskLog.groupRecords d live fs =
      .ok (encoded ((gs.flatMap LogFile.records).filter (isLive live))) := by
  induction h with
  | nil => rfl
  | cons hfg _ ih =>
    rw [DiskLog.groupRecords, hfg.liveRecords (hwf _ List.mem_cons_self)
      (hdata _ List.mem_cons_self)]
    simp only [ih (fun g hg => hwf g (List.mem_cons_of_mem _ hg))
      fun g hg => hdata g (List.mem_cons_of_mem _ hg)]
    simp [encoded]

end Live

/-! ## The file that compaction writes -/

theorem writeAll_encoded (size : Nat) (rs : List (Nat × LogRecord)) :
    DiskLog.writeAll size (encoded rs) = (rs.flatMap write, spansFrom size rs) := by
  induction rs generalizing size with
  | nil => rfl
  | cons r rs ih =>
    show DiskLog.writeAll size ((r.1, encodeRecord r.1 r.2) :: encoded rs) = _
    rw [DiskLog.writeAll, ih, spansFrom_cons]
    simp only [List.flatMap_cons, ← write_eq]
    congr 2
    simp only [write_eq, List.length_append]
    congr 1
    omega

section

variable (h : List.Forall₂ Describes fs gs)
include h

theorem forall₂_firsts : fs.map IndexFile.first = gs.map LogFile.first := by
  induction h with
  | nil => rfl
  | cons hfg _ ih => simp [hfg.first, ih]

theorem forall₂_names : fs.map IndexFile.name = gs.map LogFile.name := by
  induction h with
  | nil => rfl
  | cons hfg _ ih => simp [hfg.name, ih]

theorem forall₂_mem {g : LogFile} (hg : g ∈ gs) : ∃ f ∈ fs, Describes f g := by
  induction h with
  | nil => cases hg
  | cons hfg _ ih =>
    rcases List.mem_cons.mp hg with rfl | hg
    · exact ⟨_, List.mem_cons_self, hfg⟩
    · obtain ⟨f, hf, hdesc⟩ := ih hg
      exact ⟨f, List.mem_cons_of_mem _ hf, hdesc⟩

theorem forall₂_head : fs.head?.map IndexFile.first = gs.head?.map LogFile.first := by
  cases h with
  | nil => rfl
  | cons hfg _ => simp [hfg.first]

theorem forall₂_getLast : fs.getLast?.map IndexFile.last = gs.getLast?.map LogFile.last := by
  have hlast : fs.map IndexFile.last = gs.map LogFile.last := by
    induction h with
    | nil => rfl
    | cons hfg _ ih => simp [hfg.last, ih]
  rw [← List.getLast?_map, ← List.getLast?_map, hlast]

/-- The new file's index entry describes it, and its content is its encoding. -/
theorem compactedFile_describes {kept : List (Nat × LogRecord)} (hkept : ∀ r ∈ kept, Storable r) :
    Describes (DiskLog.compactedFile fs (encoded kept)).1 (compactedFile gs kept) ∧
    (DiskLog.compactedFile fs (encoded kept)).2 = encodeFile kept := by
  unfold DiskLog.compactedFile
  rw [writeAll_encoded]
  refine ⟨⟨?_, ?_, rfl, ?_, ?_, ?_, hkept, fun hs => ?_, fun _ => ⟨rfl, fun _ => ?_⟩⟩, rfl⟩
  · simp [compactedFile, forall₂_head h]
  · simp [compactedFile, forall₂_getLast h]
  · simp [compactedFile]
  · simp [compactedFile, encodeFile]
  · show header.length + appendedSize kept = header.length + (kept.flatMap write).length
    rw [List.length_flatMap]
    rfl
  · cases hs
  · simp [encoded, compactedFile]

end

/-! ## The row of files -/

/-- The index of the log on disk is that of the log of records. -/
structure Indexes (d : DiskLog) (l : FilesystemLog) : Prop where
  opts : d.opts = l.opts
  closed : List.Forall₂ Describes d.closed l.closed
  active : Describes d.active l.active
  indexed : d.active.indexed = true
  lastRevision : d.lastRevision = l.lastRevision

/-- The directory has the files. -/
def Holds (dir : Dir) (fs : List LogFile) : Prop :=
  ∀ g ∈ fs, dir.lookup g.name = some (encodeFile g.records)

theorem Holds.subset {dir : Dir} {fs : List LogFile} (h : Holds dir gs) (hsub : ∀ g ∈ fs, g ∈ gs) :
    Holds dir fs := fun g hg => h g (hsub g hg)

namespace Indexes

variable {d : DiskLog} {l : FilesystemLog}

theorem files (h : Indexes d l) : List.Forall₂ Describes d.files l.files :=
  List.rel_append h.closed (List.Forall₂.cons h.active .nil)

theorem activeCount (h : Indexes d l) : d.active.count = l.active.count := h.active.count

end Indexes

/-- The files of a row have different first revisions, so different names. -/
theorem FilesystemLog.WF.file_eq {l : FilesystemLog} (h : l.WF) {f g : LogFile} (hf : f ∈ l.files)
    (hg : g ∈ l.files) (heq : f.first = g.first) : f = g := by
  have hpair := firsts_ascend h.closed
  exact List.inj_on_of_nodup_map
    ((List.pairwise_map.mpr hpair : (l.files.map LogFile.first).Pairwise (· < ·)).imp Nat.ne_of_lt)
    hf hg heq

/-! ## Commit and rotation -/

namespace DiskLog

@[simp] theorem enqueue_dir (d : DiskLog) (ops : List ArchiverOp) : (d.enqueue ops).dir = d.dir := by
  unfold enqueue
  split <;> rfl

@[simp] theorem enqueue_closed (d : DiskLog) (ops : List ArchiverOp) :
    (d.enqueue ops).closed = d.closed := by
  unfold enqueue
  split <;> rfl

theorem enqueue_index {d : DiskLog} {l : FilesystemLog} (h : Indexes d l) (ops : List ArchiverOp) :
    Indexes (d.enqueue ops) l := by
  unfold enqueue
  split
  · exact ⟨h.opts, h.closed, h.active, h.indexed, h.lastRevision⟩
  · exact h

end DiskLog

theorem describes_freshFile (n : Nat) :
    Describes (DiskLog.freshFile n) (newActiveFile n) where
  first := rfl
  last := rfl
  sparse := rfl
  count := rfl
  size := rfl
  sizes := rfl
  storable := fun r hr => absurd hr List.not_mem_nil
  plain := fun _ => rfl
  spans := fun _ => ⟨rfl, fun hs => by cases hs⟩

section Rotation

variable {d : DiskLog} {l : FilesystemLog}

/-- Rotation on disk is rotation. -/
theorem Indexes.rotate (h : Indexes d l) : Indexes d.rotate l.rotate := by
  unfold DiskLog.rotate FilesystemLog.rotate
  rw [h.activeCount]
  split
  · exact h
  · apply DiskLog.enqueue_index
    refine ⟨h.opts, List.rel_append h.closed (.cons h.active .nil), ?_, rfl, h.lastRevision⟩
    rw [h.lastRevision]
    exact describes_freshFile _

/-- The name of the next active file. -/
def FilesystemLog.freshName (l : FilesystemLog) : FileName := .dense (l.lastRevision + 1)

/-- No file of a log whose active file has records takes the name of the next one. -/
theorem FilesystemLog.WF.fresh (h : l.WF) (hcount : l.active.count ≠ 0) :
    ∀ g ∈ l.files, g.name ≠ l.freshName := by
  intro g hg heq
  have hfirst : g.first = l.lastRevision + 1 := by
    rw [← g.first_name, heq]
    rfl
  obtain ⟨-, hlast⟩ := h.active.dense h.dense
  have := h.last
  rcases List.mem_append.mp hg with hc | ha
  · have := h.closed.of_mem hc
    omega
  · obtain rfl := List.mem_singleton.mp ha
    omega

end Rotation

section Commit

variable {d : DiskLog} {l : FilesystemLog} {batch : List LogRecord}

/-- The log on disk with a batch appended to its active file, before any rotation. -/
def DiskLog.published (d : DiskLog) (batch : List LogRecord) : DiskLog :=
  let new := numberFrom (d.lastRevision + 1) batch
  { d with
    dir := appendTo d.dir d.active.name (new.flatMap write)
    active := { d.active with
      spans := d.active.spans ++ spansFrom d.active.size new
      count := d.active.count + batch.length
      size := d.active.size + (new.flatMap write).length
      last := d.lastRevision + batch.length }
    lastRevision := d.lastRevision + batch.length }

theorem spansFrom_shift (base pos : Nat) (rs : List (Nat × LogRecord)) :
    (spansFrom pos rs).map (fun s => { s with offset := s.offset + base }) =
      spansFrom (pos + base) rs := by
  induction rs generalizing pos with
  | nil => rfl
  | cons r rs ih =>
    rw [spansFrom_cons, spansFrom_cons, List.map_cons, ih]
    simp only [Nat.add_right_comm]

/-- `commitBatch` publishes the batch and rotates if the file is large. -/
theorem DiskLog.commitBatch_eq (d : DiskLog) (position : Nat) (batch : List LogRecord) :
    d.commitBatch position batch =
      if batch.isEmpty then .error .noTransactions
      else if position ≠ d.lastRevision then .error (.notContiguous position d.lastRevision)
      else if d.opts.rotateBytes ≤ (d.published batch).active.size then
        .ok (d.published batch).rotate
      else .ok (d.published batch) := by
  unfold commitBatch
  rw [appendRecordsAt_eq]
  by_cases hpos : position = d.lastRevision
  · subst hpos
    have hshift := spansFrom_shift d.active.size 0 (numberFrom (d.lastRevision + 1) batch)
    rw [Nat.zero_add] at hshift
    simp only [List.nil_append, List.length_nil, hshift]
    rfl
  · simp [hpos]

theorem Indexes.published (h : Indexes d l)
    (hbatch : ∀ r ∈ numberFrom (l.lastRevision + 1) batch, Storable r) (hdense : l.active.sparse = false) :
    Indexes (d.published batch) (l.published batch) := by
  have hnew : numberFrom (d.lastRevision + 1) batch = numberFrom (l.lastRevision + 1) batch := by
    rw [h.lastRevision]
  have hlen := length_numberFrom (l.lastRevision + 1) batch
  refine ⟨h.opts, h.closed, ?_, h.indexed, ?_⟩
  · constructor
    · exact h.active.first
    · show d.lastRevision + batch.length = l.lastRevision + batch.length
      rw [h.lastRevision]
    · exact h.active.sparse
    · show d.active.count + batch.length =
        (l.active.records ++ numberFrom (l.lastRevision + 1) batch).length
      rw [List.length_append, hlen, h.active.count]
    · show d.active.size + ((numberFrom (d.lastRevision + 1) batch).flatMap write).length =
        (encodeFile (l.active.records ++ numberFrom (l.lastRevision + 1) batch)).length
      rw [hnew, h.active.size]
      simp [encodeFile, Nat.add_assoc]
    · show l.active.size + appendedSize (numberFrom (l.lastRevision + 1) batch) =
        d.active.size + ((numberFrom (d.lastRevision + 1) batch).flatMap write).length
      rw [hnew, h.active.sizes, List.length_flatMap]
      rfl
    · intro r hr
      rcases List.mem_append.mp hr with hr | hr
      · exact h.active.storable r hr
      · exact hbatch r hr
    · intro hs
      exact h.active.plain hs
    · intro hi
      refine ⟨?_, fun hs => ?_⟩
      · show d.active.spans ++ spansFrom d.active.size (numberFrom (d.lastRevision + 1) batch) =
          spansFrom header.length (l.active.records ++ numberFrom (l.lastRevision + 1) batch)
        rw [spansFrom_append, (h.active.spans hi).1, hnew, h.active.size, encodeFile,
          List.length_append]
      · rw [show (l.published batch).active.sparse = l.active.sparse from rfl, hdense] at hs
        cases hs
  · show d.lastRevision + batch.length = l.lastRevision + batch.length
    rw [h.lastRevision]

end Commit

end CloudEtcd
