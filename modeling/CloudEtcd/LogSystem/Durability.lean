/-
# CloudEtcd.LogSystem.Durability — the writes of the log, step by step, and crashes between them.

`commitBatch` writes the bytes of a batch, syncs the file and publishes; a rotation creates the next
file, writes its header and syncs it.  `Writer` takes these one at a time and keeps, for every file, how
many of its bytes are synced.  A crash keeps the synced bytes of every file and some of the bytes
written after them (`Survives`).

Opening the directory again then finds the acknowledged records and a part of the batch that was being
written, exactly if no file is left with less than its header (`crash_recovery_iff`): the file that a
rotation was creating is the one that can be.
-/
import CloudEtcd.LogSystem.FileIndex

namespace CloudEtcd

open DiskLog Transition Dir
open AList (lookup_insert lookup_insert_ne insert_insert)
open Option (getD_some bind_some)
open List (length_append mem_singleton append_nil take_length take_of_length_le take_take)

variable {d d' : Dir}

open LogCodec

/-! ## The writer -/

/-- Where the writer stands.  The batch is the one that is not acknowledged yet; it is empty for a
rotation by age and for the first file. -/
inductive WritePhase where
  | ready
  /-- Some bytes of the batch are written. -/
  | writing (batch : List LogRecord) (written : Nat)
  /-- The batch is synced. -/
  | flushed (batch : List LogRecord)
  /-- The batch is in the index. -/
  | published (batch : List LogRecord)
  /-- In `newActiveFile`, before the file is created or with some bytes of its header. -/
  | creating (batch : List LogRecord) (written : Option Nat)
  /-- The header is synced. -/
  | headed (batch : List LogRecord)
  /-- About to return. -/
  | returning (batch : List LogRecord)

/-- The log as its writer has it.  There is no active file while the first one is being created. -/
structure Writer where
  opts : Options
  dir : Dir
  synced : FileName → Nat
  closed : List IndexFile
  active : Option IndexFile
  lastRevision : Nat
  acked : List LogRecord
  phase : WritePhase

inductive WriteAction where
  | begin (batch : List LogRecord)
  | write (bytes : Nat)
  | sync
  | publish
  | rotate
  | create
  | enter
  | ack
  | reopen (opts : Options)

namespace Writer

/-- `open` on an empty directory comes to `newActiveFile`. -/
def init (opts : Options) : Writer where
  opts := opts.withDefaults
  dir := ∅
  synced := fun _ => 0
  closed := []
  active := none
  lastRevision := 0
  acked := []
  phase := .creating [] none

/-- The log, with the active file `f`. -/
def log (s : Writer) (f : IndexFile) : DiskLog :=
  ⟨s.opts, false, s.dir, s.closed, f, s.lastRevision, []⟩

/-- The bytes and spans of a batch. -/
def encodeBatch (s : Writer) (batch : List LogRecord) : Bytes × List Span :=
  appendRecordsAt [] (numberFrom (s.lastRevision + 1) batch)

/-- The name of the file that `newActiveFile` creates. -/
def freshName (s : Writer) : FileName := (freshFile s.lastRevision).name

/-- `Sync`: all bytes of the file are on disk. -/
def flush (s : Writer) (name : FileName) : FileName → Nat :=
  Function.update s.synced name ((s.dir.lookup name).getD []).length

/-- The index entry of the active file after a batch. -/
def extended (s : Writer) (f : IndexFile) (batch : List LogRecord) : IndexFile :=
  { f with
    spans := f.spans ++ (s.encodeBatch batch).2.map fun x => { x with offset := x.offset + f.size }
    count := f.count + batch.length
    size := f.size + (s.encodeBatch batch).1.length
    last := s.lastRevision + batch.length }

/-- One step. -/
def step (s : Writer) : WriteAction → Option Writer
  | .begin batch =>
    match s.phase, s.active with
    | .ready, some _ =>
      let records := numberFrom (s.lastRevision + 1) batch
      if batch.isEmpty then none
      else if ∀ r ∈ records, Storable r then some { s with phase := .writing batch 0 }
      else none
    | _, _ => none
  | .write n =>
    match s.phase, s.active with
    | .writing batch k, some f =>
      let chunk := ((s.encodeBatch batch).1.drop k).take n
      some { s with
        dir := appendTo s.dir f.name chunk
        phase := .writing batch (k + chunk.length) }
    | .creating batch (some k), _ =>
      let chunk := (header.drop k).take n
      some { s with
        dir := appendTo s.dir s.freshName chunk
        phase := .creating batch (some (k + chunk.length)) }
    | _, _ => none
  | .sync =>
    match s.phase, s.active with
    | .writing batch k, some f =>
      if k = (s.encodeBatch batch).1.length then
        some { s with synced := s.flush f.name, phase := .flushed batch }
      else none
    | .creating batch (some k), _ =>
      if k = header.length then
        some { s with synced := s.flush s.freshName, phase := .headed batch }
      else none
    | _, _ => none
  | .publish =>
    match s.phase, s.active with
    | .flushed batch, some f =>
      some { s with
        active := some (s.extended f batch)
        lastRevision := s.lastRevision + batch.length
        phase := .published batch }
    | _, _ => none
  | .rotate =>
    match s.phase, s.active with
    -- by size, at the end of a commit
    | .published batch, some f =>
      if s.opts.rotateBytes ≤ f.size ∧ f.count ≠ 0 then
        some { s with phase := .creating batch none }
      else none
    -- by age
    | .ready, some f =>
      if f.count ≠ 0 then some { s with phase := .creating [] none } else none
    | _, _ => none
  | .create =>
    match s.phase with
    | .creating batch none =>
      if s.freshName ∈ s.dir then none
      else some { s with
        dir := s.dir.insert s.freshName []
        synced := Function.update s.synced s.freshName 0
        phase := .creating batch (some 0) }
    | _ => none
  | .enter =>
    match s.phase with
    | .headed batch =>
      some { s with
        closed := s.closed ++ s.active.toList
        active := some (freshFile s.lastRevision)
        phase := .returning batch }
    | _ => none
  | .ack =>
    match s.phase, s.active with
    | .published batch, some f =>
      if s.opts.rotateBytes ≤ f.size then none
      else some { s with acked := s.acked ++ batch, phase := .ready }
    | .returning batch, _ => some { s with acked := s.acked ++ batch, phase := .ready }
    | _, _ => none
  -- a clean close, which without an archive leaves the directory as it is, and a new process
  | .reopen opts =>
    match s.phase, s.active with
    | .ready, some _ =>
      match openLog opts false ∅ s.dir with
      | (dir, .ok log) =>
        some { s with
          opts := log.opts
          dir := dir
          closed := log.closed
          active := some log.active
          lastRevision := log.lastRevision }
      | (_, .error _) => none
    | _, _ => none

/-- The batch that is not acknowledged yet. -/
def inFlight (s : Writer) : List LogRecord :=
  match s.phase with
  | .ready => []
  | .writing batch _ | .flushed batch | .published batch | .creating batch _ | .headed batch
  | .returning batch => batch

/-- The directory after a crash: every file has its synced bytes and some of those written after
them, and every file that was created is there. -/
def Survives (s : Writer) (dir : Dir) : Prop :=
  ∀ n, (s.dir.lookup n = none ∧ dir.lookup n = none) ∨
    ∃ data k, s.dir.lookup n = some data ∧ s.synced n ≤ k ∧ dir.lookup n = some (data.take k)

/-- Opening the directory again succeeds, and the log has the acknowledged records and the first ones
of the batch that was being written. -/
def Recovered (s : Writer) (dir : Dir) : Prop :=
  ∀ opts, ∃ log k, (openLog opts false ∅ dir).2 = .ok log ∧ k ≤ s.inFlight.length ∧
    log.readFrom 1 = .ok (encoded (numberFrom 1 (s.acked ++ s.inFlight.take k))) ∧
    log.lastRevision = s.acked.length + k

/-- No file has lost a part of its header. -/
def Headed (dir : Dir) : Prop :=
  ∀ n ∈ dir, header.length ≤ ((dir.lookup n).getD []).length

instance decidableHeaded (dir : Dir) : Decidable (Headed dir) :=
  decidable_of_iff (∀ n ∈ dir.keys, header.length ≤ ((dir.lookup n).getD []).length) Iff.rfl

/-- The crash that keeps `k` bytes of one file and all of the others. -/
def crashAt (s : Writer) (n : FileName) (k : Nat) : Dir :=
  s.dir.insert n (((s.dir.lookup n).getD []).take k)

end Writer

/-! ## Directories with the same files, and writes in pieces -/

theorem Dir.names_congr (h : ∀ n, d.lookup n = d'.lookup n) : d.names = d'.names := by
  refine names_eq d'.names_precede fun n => ?_
  rw [mem_names, mem_iff_lookup, mem_iff_lookup, h]

theorem Dir.eq_empty (h : ∀ n, d.lookup n = none) : d = ∅ := by
  refine AList.ext ?_
  rw [AList.empty_entries]
  refine List.eq_nil_iff_forall_not_mem.mpr fun x hx => ?_
  have hx' := AList.mem_lookup_iff.mpr hx
  rw [h] at hx'
  cases hx'

variable {b : FilesystemLog}

theorem Recovers.congr (h : Recovers d b) (heq : ∀ n, d.lookup n = d'.lookup n) :
    Recovers d' b := by
  refine ⟨h.wf, h.disk, names_congr heq ▸ h.kept, fun g hg => heq g.name ▸ h.closed g hg, ?_⟩
  obtain ⟨tail, htail, hdata⟩ := h.active
  exact ⟨tail, htail, heq b.active.name ▸ hdata⟩

theorem HoldsOnly.congr {fs : List LogFile} (h : HoldsOnly d fs)
    (heq : ∀ n, d.lookup n = d'.lookup n) : HoldsOnly d' fs := by
  refine ⟨fun g hg => heq g.name ▸ h.holds g hg, fun n hn => h.only n ?_⟩
  rw [mem_iff_lookup] at hn ⊢
  rwa [heq]

theorem Dead.congr (h : Dead d) (heq : ∀ n, d.lookup n = d'.lookup n) : Dead d' := by
  obtain ⟨n, hn, e, hscan⟩ := h
  exact ⟨n, names_congr heq ▸ hn, e, heq n ▸ hscan⟩

/-- Reading from the first revision. -/
theorem Refines.readFrom_one {d : DiskLog} {l : FilesystemLog} (h : Refines d l) :
    d.readFrom 1 = .ok (encoded l.records) := by
  have hall : l.records.filter (fun r => decide (1 ≤ r.1)) = l.records :=
    List.filter_eq_self.mpr fun r hr => by simpa using (h.wf.record_bounds hr).1
  have hread : d.readFrom 1 = .ok (encoded (l.records.filter fun r => decide (1 ≤ r.1))) :=
    h.readFrom 1
  rw [hread, hall]

theorem numberFrom_append (first : Nat) (xs ys : List LogRecord) :
    numberFrom first (xs ++ ys) = numberFrom first xs ++ numberFrom (first + xs.length) ys := by
  induction xs generalizing first with
  | nil => rfl
  | cons x xs ih =>
    rw [List.cons_append, numberFrom, ih, numberFrom, List.length_cons, List.cons_append]
    congr 3
    omega

/-- The lookups of an append. -/
theorem lookup_appendTo (d : Dir) (n : FileName) (x : Bytes) (m : FileName) :
    (appendTo d n x).lookup m =
      if m = n then some ((d.lookup n).getD [] ++ x) else d.lookup m := by
  unfold appendTo
  by_cases hm : m = n
  · subst hm
    rw [lookup_insert, if_pos rfl]
  · rw [lookup_insert_ne hm, if_neg hm]

/-- One more chunk of a buffer of which `k` bytes are written. -/
theorem take_add_chunk (xs : Bytes) {k : Nat} (hk : k ≤ xs.length) (n : Nat) :
    xs.take k ++ (xs.drop k).take n = xs.take (k + ((xs.drop k).take n).length) ∧
      k + ((xs.drop k).take n).length ≤ xs.length := by
  have hlen : ((xs.drop k).take n).length = min n (xs.length - k) := by simp
  constructor
  · rw [List.take_add, hlen]
    congr 1
    rw [List.take_eq_take_iff]
    simp
  · omega

/-! ## The invariant -/

namespace Writer

/-- The index describes the log `l`, which has the records `done`. -/
structure Stands (s : Writer) (f : IndexFile) (l : FilesystemLog) (done : List LogRecord) : Prop where
  active : s.active = some f
  index : Indexes (s.log f) l
  wf : l.WF
  records : l.records = numberFrom 1 done
  last : l.lastRevision = done.length

/-- The directory has just the files of the log, and all their bytes are synced. -/
structure Durable (dir : Dir) (synced : FileName → Nat) (l : FilesystemLog) : Prop where
  only : HoldsOnly dir l.files
  all : ∀ g ∈ l.files, synced g.name = (encodeFile g.records).length

/-- Nothing is there before the first file. -/
structure First (s : Writer) (batch : List LogRecord) : Prop where
  batch : batch = []
  active : s.active = none
  closed : s.closed = []
  last : s.lastRevision = 0
  acked : s.acked = []

/-- What stands on disk, by phase. -/
def ConsistentIn (s : Writer) : WritePhase → Prop
  | .ready => ∃ f l, Stands s f l s.acked ∧ Durable s.dir s.synced l
  | .writing batch k => ∃ f l dir, Stands s f l s.acked ∧
      (∀ r ∈ numberFrom (l.lastRevision + 1) batch, Storable r) ∧ Durable dir s.synced l ∧
      (∀ n, s.dir.lookup n = (appendTo dir l.active.name
        ((batchBytes l.lastRevision batch).take k)).lookup n) ∧
      k ≤ (batchBytes l.lastRevision batch).length
  | .flushed batch => ∃ f l, Stands s f l s.acked ∧
      (∀ r ∈ numberFrom (l.lastRevision + 1) batch, Storable r) ∧
      Durable s.dir s.synced (l.published batch)
  | .published batch => ∃ f l, Stands s f l (s.acked ++ batch) ∧ Durable s.dir s.synced l
  | .creating batch none => (First s batch ∧ s.dir = ∅) ∨
      ∃ f l, Stands s f l (s.acked ++ batch) ∧ l.active.records ≠ [] ∧ Durable s.dir s.synced l
  | .creating batch (some k) => k ≤ header.length ∧
      ((First s batch ∧ s.dir = AList.insert (FileName.dense 1) (header.take k) ∅) ∨
        ∃ f l dir, Stands s f l (s.acked ++ batch) ∧ l.active.records ≠ [] ∧
          Durable dir s.synced l ∧ s.dir = dir.insert l.freshName (header.take k))
  | .headed batch => (First s batch ∧ s.dir = AList.insert (FileName.dense 1) header ∅ ∧
        s.synced (.dense 1) = header.length) ∨
      ∃ f l, Stands s f l (s.acked ++ batch) ∧ l.active.records ≠ [] ∧
        Durable s.dir s.synced l.rotate
  | .returning batch => ∃ f l, Stands s f l (s.acked ++ batch) ∧ Durable s.dir s.synced l

def Consistent (s : Writer) : Prop := s.ConsistentIn s.phase

/-- The log with its first file. -/
def firstLog (opts : Options) : FilesystemLog := { LogSystem.emptyLog opts with opts := opts }

variable {batch : List LogRecord}

theorem First.freshName {s : Writer} (h : First s batch) : s.freshName = .dense 1 := by
  rw [Writer.freshName, h.last]
  rfl

theorem consistent_init (opts : Options) : Consistent (init opts) :=
  Or.inl ⟨⟨rfl, rfl, rfl, rfl, rfl⟩, rfl⟩

namespace Stands

variable {s : Writer} {f : IndexFile} {l : FilesystemLog} {done : List LogRecord}
variable {s' : Writer}

theorem encodeBatch (h : Stands s f l done) (batch : List LogRecord) :
    (s.encodeBatch batch).1 = batchBytes l.lastRevision batch := by
  have hlast : s.lastRevision = l.lastRevision := h.index.lastRevision
  rw [Writer.encodeBatch, appendRecordsAt_eq, hlast]
  rfl

theorem name (h : Stands s f l done) : f.name = l.active.name := h.index.active.name

theorem eq_active (h : Stands s f l done) {f' : IndexFile} (hactive : s.active = some f') : f' = f :=
  Option.some.inj (hactive.symm.trans h.active)

theorem freshName (h : Stands s f l done) : s.freshName = l.freshName := by
  have hlast : s.lastRevision = l.lastRevision := h.index.lastRevision
  rw [Writer.freshName, hlast]
  rfl

theorem disk (h : Stands s f l done) : ∀ g ∈ l.files, g.OnDisk := by
  intro g hg
  obtain ⟨x, -, hx⟩ := forall₂_mem h.index.files hg
  exact hx.onDisk (h.wf.file_wf hg)

theorem active_ne (h : Stands s f l done) (hcount : f.count ≠ 0) : l.active.records ≠ [] := by
  intro hnil
  have hzero : f.count = l.active.records.length := h.index.active.count
  rw [hnil] at hzero
  exact hcount hzero

/-- The index after a batch. -/
theorem publish (h : Stands s f l done)
    (hbatch : ∀ r ∈ numberFrom (l.lastRevision + 1) batch, Storable r) (hs' : s' = { s with
      active := some (s.extended f batch)
      lastRevision := s.lastRevision + batch.length
      phase := .published batch }) :
    Stands s' (s.extended f batch) (l.published batch) (done ++ batch) := by
  have hentry : s.extended f batch = ((s.log f).published batch).active := by
    have hspans : (s.encodeBatch batch).2.map (fun x => { x with offset := x.offset + f.size }) =
        spansFrom f.size (numberFrom (s.lastRevision + 1) batch) := by
      rw [Writer.encodeBatch, appendRecordsAt_eq]
      simpa using spansFrom_shift f.size 0 (numberFrom (s.lastRevision + 1) batch)
    have hbytes : (s.encodeBatch batch).1 = (numberFrom (s.lastRevision + 1) batch).flatMap write := by
      rw [Writer.encodeBatch, appendRecordsAt_eq]
      rfl
    rw [Writer.extended, hspans, hbytes]
    rfl
  have hindex := h.index.published hbatch h.wf.dense
  subst hs'
  refine ⟨rfl, ⟨hindex.opts, hindex.closed, ?_, ?_, hindex.lastRevision⟩,
    FilesystemLog.wf_published h.wf batch, ?_, ?_⟩
  · exact hentry ▸ hindex.active
  · exact hentry ▸ hindex.indexed
  · rw [FilesystemLog.records_published, h.records, h.last, numberFrom_append, Nat.add_comm 1]
  · show l.lastRevision + batch.length = _
    rw [h.last, length_append]

/-- Another phase or directory. -/
theorem same (h : Stands s f l done) (hactive : s'.active = s.active) (hopts : s'.opts = s.opts)
    (hclosed : s'.closed = s.closed) (hlast : s'.lastRevision = s.lastRevision) : Stands s' f l done := by
  refine ⟨hactive.trans h.active, ⟨?_, ?_, h.index.active, h.index.indexed, ?_⟩, h.wf, h.records,
    h.last⟩
  · exact hopts.trans h.index.opts
  · show List.Forall₂ Describes s'.closed l.closed
    rw [hclosed]
    exact h.index.closed
  · exact hlast.trans h.index.lastRevision

/-- The first file joins the index. -/
theorem first (hfirst : First s []) : Stands
    { s with
      closed := s.closed ++ s.active.toList
      active := some (freshFile s.lastRevision)
      phase := .returning [] }
    (freshFile 0) (firstLog s.opts) [] := by
  have hwf := LogSystem.wf_emptyLog s.opts
  refine ⟨by rw [hfirst.last], ⟨rfl, ?_, describes_freshFile 0, rfl, hfirst.last⟩,
    ⟨hwf.closed, hwf.active, hwf.dense, hwf.last⟩, rfl, rfl⟩
  show List.Forall₂ Describes (s.closed ++ s.active.toList) []
  rw [hfirst.closed, hfirst.active]
  exact .nil

/-- The new file joins the index. -/
theorem enter (h : Stands s f l done) (hne : l.active.records ≠ []) (hs' : s' = { s with
      closed := s.closed ++ s.active.toList
      active := some (freshFile s.lastRevision)
      phase := s'.phase }) :
    Stands s' (freshFile s.lastRevision) l.rotate done := by
  have hrotate := rotate_eq hne
  have hlast : s.lastRevision = l.lastRevision := h.index.lastRevision
  have hclosed : s'.closed = s.closed ++ [f] := by
    rw [hs', h.active]
    rfl
  have hframe := FilesystemLog.rotate_frame l
  refine ⟨by rw [hs'], ⟨?_, ?_, ?_, rfl, ?_⟩, FilesystemLog.wf_rotate h.wf,
    hframe.1.trans h.records, hframe.2.1.trans h.last⟩
  · rw [hframe.2.2.2]
    show s'.opts = _
    rw [hs']
    exact h.index.opts
  · show List.Forall₂ Describes s'.closed l.rotate.closed
    rw [hclosed, hrotate]
    exact List.rel_append h.index.closed (List.Forall₂.cons h.index.active .nil)
  · show Describes (freshFile s.lastRevision) l.rotate.active
    rw [hrotate, hlast]
    exact describes_freshFile l.lastRevision
  · rw [hframe.2.1]
    show s'.lastRevision = _
    rw [hs']
    exact hlast

end Stands

namespace Durable

variable {dir : Dir} {synced : FileName → Nat} {l : FilesystemLog}

/-- A whole batch is synced. -/
theorem append (h : Durable dir synced l) (hwf : l.WF) (batch : List LogRecord) :
    Durable (appendTo dir l.active.name (batchBytes l.lastRevision batch))
      (Function.update synced l.active.name
        (encodeFile (l.published batch).active.records).length) (l.published batch) := by
  refine ⟨h.only.append hwf batch, fun g hg => ?_⟩
  rcases List.mem_append.mp hg with hg | hg
  · rw [Function.update_of_ne (hwf.closed_name_ne hg)]
    exact h.all g (List.mem_append_left _ hg)
  · rw [mem_singleton.mp hg, name_published hwf, Function.update_self]

/-- The header of the next file is synced. -/
theorem create (h : Durable dir synced l) (hwf : l.WF) (hne : l.active.records ≠ []) :
    Durable (dir.insert l.freshName header) (Function.update synced l.freshName header.length)
      l.rotate := by
  refine ⟨h.only.create hwf hne, fun g hg => ?_⟩
  have hcount : l.active.count ≠ 0 := fun h0 => hne (List.length_eq_zero_iff.mp h0)
  have hfiles : l.rotate.files = l.files ++ [FilesystemLog.newActiveFile l.lastRevision] := by
    rw [rotate_eq hne]
    rfl
  rw [hfiles] at hg
  rcases List.mem_append.mp hg with hg | hg
  · rw [Function.update_of_ne (hwf.fresh hcount g hg)]
    exact h.all g hg
  · rw [mem_singleton.mp hg]
    exact Function.update_self _ _ _

/-- Nothing depends on the files that are not there. -/
theorem update (h : Durable dir synced l) {n : FileName} (hn : n ∉ dir) (k : Nat) :
    Durable dir (Function.update synced n k) l := by
  refine ⟨h.only, fun g hg => ?_⟩
  rw [Function.update_of_ne]
  · exact h.all g hg
  · exact fun heq => hn (heq ▸ mem_iff_lookup.mpr ⟨_, h.only.holds g hg⟩)

/-- The first file. -/
theorem first (opts : Options) (hsync : synced (.dense 1) = header.length) :
    Durable (AList.insert (FileName.dense 1) header ∅) synced (firstLog opts) := by
  refine ⟨LogSystem.holdsOnly_emptyLog opts (LogSystem.lookup_singleton rfl header), fun g hg => ?_⟩
  rw [mem_singleton.mp hg]
  exact hsync

end Durable

/-! ## Every step keeps it -/

section Steps

variable {s s' : Writer} (h : Consistent s)
include h

theorem Consistent.at {phase : WritePhase} (hphase : s.phase = phase) : s.ConsistentIn phase := hphase ▸ h

theorem step_begin (hstep : s.step (.begin batch) = some s') : Consistent s' := by
  simp only [step] at hstep
  split at hstep
  · next hphase hactive =>
    split at hstep
    · cases hstep
    · split at hstep
      · next hbatch =>
        cases hstep
        obtain ⟨f, l, hstands, hdir⟩ := h.at hphase
        have hlast : s.lastRevision = l.lastRevision := hstands.index.lastRevision
        refine ⟨f, l, s.dir, hstands.same rfl rfl rfl rfl, hlast ▸ hbatch, hdir, fun n => ?_,
          Nat.zero_le _⟩
        rw [lookup_appendTo, List.take_zero, append_nil, hdir.only.active]
        split
        · next heq =>
          rw [heq]
          exact hdir.only.active
        · rfl
      · cases hstep
  · cases hstep

theorem step_write {n : Nat} (hstep : s.step (.write n) = some s') : Consistent s' := by
  simp only [step] at hstep
  split at hstep
  · next batch k f hphase hactive =>
    cases hstep
    obtain ⟨f', l, dir, hstands, hbatch, hbase, hdir, hk⟩ := h.at hphase
    obtain rfl := hstands.eq_active hactive
    obtain ⟨happend, hle⟩ := take_add_chunk (batchBytes l.lastRevision batch) hk n
    rw [hstands.encodeBatch]
    refine ⟨f, l, dir, hstands.same rfl rfl rfl rfl, hbatch, hbase, fun m => ?_, hle⟩
    show (appendTo s.dir f.name _).lookup m = _
    rw [lookup_appendTo, lookup_appendTo, hstands.name, hdir, lookup_appendTo, if_pos rfl,
      ← happend]
    split
    · simp
    · next hne => rw [hdir, lookup_appendTo, if_neg hne]
  · next batch k hphase =>
    cases hstep
    obtain ⟨hk, hcases⟩ := h.at hphase
    obtain ⟨happend, hle⟩ := take_add_chunk header hk n
    refine ⟨hle, ?_⟩
    rcases hcases with ⟨hfirst, hdir⟩ | ⟨f, l, dir, hstands, hne, hbase, hdir⟩
    · refine Or.inl ⟨⟨hfirst.batch, hfirst.active, hfirst.closed, hfirst.last, hfirst.acked⟩, ?_⟩
      show appendTo s.dir s.freshName _ = _
      rw [hfirst.freshName, hdir, appendTo, lookup_insert, insert_insert,
        getD_some, happend]
    · refine Or.inr ⟨f, l, dir, hstands.same rfl rfl rfl rfl, hne, hbase, ?_⟩
      show appendTo s.dir s.freshName _ = _
      rw [hstands.freshName, hdir, appendTo, lookup_insert, insert_insert,
        getD_some, happend]
  · cases hstep

theorem step_sync (hstep : s.step .sync = some s') : Consistent s' := by
  simp only [step] at hstep
  split at hstep
  · next batch k f hphase hactive =>
    split at hstep
    · next hall =>
      cases hstep
      obtain ⟨f', l, dir, hstands, hbatch, hbase, hdir, -⟩ := h.at hphase
      obtain rfl := hstands.eq_active hactive
      rw [hstands.encodeBatch] at hall
      have hdurable := hbase.append hstands.wf batch
      rw [hall, take_length] at hdir
      refine ⟨f, l, hstands.same rfl rfl rfl rfl, hbatch,
        hdurable.only.congr fun n => (hdir n).symm, ?_⟩
      intro g hg
      have hlookup : s.dir.lookup f.name =
          some (encodeFile (l.published batch).active.records) := by
        rw [hstands.name, hdir, appendTo_active hbase.only.active, lookup_insert]
      show s.flush f.name g.name = _
      rw [flush, hlookup, hstands.name]
      exact hdurable.all g hg
    · cases hstep
  · next batch k hphase =>
    split at hstep
    · next hall =>
      cases hstep
      obtain ⟨-, hcases⟩ := h.at hphase
      rw [hall, take_length] at hcases
      rcases hcases with ⟨hfirst, hdir⟩ | ⟨f, l, dir, hstands, hne, hbase, hdir⟩
      · refine Or.inl ⟨⟨hfirst.batch, hfirst.active, hfirst.closed, hfirst.last, hfirst.acked⟩,
          hdir, ?_⟩
        show s.flush s.freshName (.dense 1) = _
        rw [hfirst.freshName, flush, Function.update_self, hdir, lookup_insert]
        rfl
      · refine Or.inr ⟨f, l, hstands.same rfl rfl rfl rfl, hne, ?_⟩
        have hdurable := hbase.create hstands.wf hne
        show Durable s.dir (s.flush s.freshName) _
        rw [hstands.freshName, flush, hdir, lookup_insert]
        exact hdurable
    · cases hstep
  · cases hstep

theorem step_publish (hstep : s.step .publish = some s') : Consistent s' := by
  simp only [step] at hstep
  split at hstep
  · next batch f hphase hactive =>
    cases hstep
    obtain ⟨f', l, hstands, hbatch, hdir⟩ := h.at hphase
    obtain rfl := hstands.eq_active hactive
    exact ⟨_, _, hstands.publish hbatch rfl, hdir⟩
  · cases hstep

theorem step_rotate (hstep : s.step .rotate = some s') : Consistent s' := by
  simp only [step] at hstep
  split at hstep
  · next batch f hphase hactive =>
    split at hstep
    · next hlarge =>
      cases hstep
      obtain ⟨f', l, hstands, hdir⟩ := h.at hphase
      obtain rfl := hstands.eq_active hactive
      exact Or.inr ⟨f, l, hstands.same rfl rfl rfl rfl, hstands.active_ne hlarge.2, hdir⟩
    · cases hstep
  · next f hphase hactive =>
    split at hstep
    · next hcount =>
      cases hstep
      obtain ⟨f', l, hstands, hdir⟩ := h.at hphase
      obtain rfl := hstands.eq_active hactive
      refine Or.inr ⟨f, l, ?_, hstands.active_ne hcount, hdir⟩
      rw [append_nil]
      exact hstands.same rfl rfl rfl rfl
    · cases hstep
  · cases hstep

theorem step_create (hstep : s.step .create = some s') : Consistent s' := by
  simp only [step] at hstep
  split at hstep
  · next batch hphase =>
    split at hstep
    · cases hstep
    · next hnew =>
      cases hstep
      refine ⟨Nat.zero_le _, ?_⟩
      rcases h.at hphase with ⟨hfirst, hdir⟩ | ⟨f, l, hstands, hne, hdir⟩
      · refine Or.inl ⟨⟨hfirst.batch, hfirst.active, hfirst.closed, hfirst.last, hfirst.acked⟩, ?_⟩
        show s.dir.insert s.freshName [] = _
        rw [hfirst.freshName, hdir]
        rfl
      · refine Or.inr ⟨f, l, s.dir, hstands.same rfl rfl rfl rfl, hne,
          hdir.update hnew 0, ?_⟩
        show s.dir.insert s.freshName [] = _
        rw [hstands.freshName]
        rfl
  · cases hstep

theorem step_enter (hstep : s.step .enter = some s') : Consistent s' := by
  simp only [step] at hstep
  split at hstep
  · next batch hphase =>
    cases hstep
    rcases h.at hphase with ⟨hfirst, hdir, hsync⟩ | ⟨f, l, hstands, hne, hdir⟩
    · obtain rfl := hfirst.batch
      refine ⟨freshFile 0, firstLog s.opts, ?_, hdir ▸ Durable.first s.opts hsync⟩
      have hdone : s.acked ++ [] = [] := by rw [hfirst.acked, append_nil]
      show Stands _ _ _ (s.acked ++ [])
      rw [hdone]
      exact Stands.first hfirst
    · exact ⟨_, _, hstands.enter hne rfl, hdir⟩
  · cases hstep

theorem step_ack (hstep : s.step .ack = some s') : Consistent s' := by
  simp only [step] at hstep
  split at hstep
  · next batch f hphase hactive =>
    split at hstep
    · cases hstep
    · cases hstep
      obtain ⟨f', l, hstands, hdir⟩ := h.at hphase
      exact ⟨f', l, hstands.same rfl rfl rfl rfl, hdir⟩
  · next batch hphase =>
    cases hstep
    obtain ⟨f', l, hstands, hdir⟩ := h.at hphase
    exact ⟨f', l, hstands.same rfl rfl rfl rfl, hdir⟩
  · cases hstep

theorem step_reopen {opts : Options} (hstep : s.step (.reopen opts) = some s') : Consistent s' := by
  simp only [step] at hstep
  split at hstep
  · next f hphase hactive =>
    obtain ⟨f', l, hstands, hdir⟩ := h.at hphase
    have hrec := hdir.only.recovers hstands.wf hstands.disk
    obtain ⟨log, hopen, hrefines⟩ := hrec.openLog_plain opts
    rw [hopen] at hstep
    cases hstep
    have hindex := hrefines.index
    unfold Consistent
    dsimp only
    rw [hphase]
    exact ⟨log.active, { l with opts := opts.withDefaults },
      ⟨rfl, ⟨hindex.opts, hindex.closed, hindex.active, hindex.indexed, hindex.lastRevision⟩,
        hrefines.wf, hstands.records, hstands.last⟩, hrefines.dir, hdir.all⟩
  · cases hstep

/-- Every step keeps the invariant. -/
theorem Consistent.step {a : WriteAction} (hstep : s.step a = some s') : Consistent s' := by
  cases a with
  | begin batch => exact step_begin h hstep
  | write n => exact step_write h hstep
  | sync => exact step_sync h hstep
  | publish => exact step_publish h hstep
  | rotate => exact step_rotate h hstep
  | create => exact step_create h hstep
  | enter => exact step_enter h hstep
  | ack => exact step_ack h hstep
  | reopen opts => exact step_reopen h hstep

end Steps

/-- Every run keeps the invariant. -/
theorem consistent_run {opts : Options} {as : List WriteAction} {s : Writer}
    (h : run step (init opts) as = some s) : Consistent s :=
  run_invariant (fun _ _ _ hs hstep => Consistent.step hs hstep) h (consistent_init opts)

/-! ## Crashes -/

section Crash

variable {s : Writer} {dir : Dir}
variable {n : FileName} {l : FilesystemLog} {w : Nat} {base : Dir}

theorem survives_crashAt (hn : n ∈ s.dir) {k : Nat} (hk : s.synced n ≤ k) :
    s.Survives (s.crashAt n k) := by
  intro m
  unfold crashAt
  by_cases hm : m = n
  · subst hm
    obtain ⟨data, hdata⟩ := mem_iff_lookup.mp hn
    exact Or.inr ⟨data, k, hdata, hk, by rw [lookup_insert, hdata, getD_some]⟩
  · rw [lookup_insert_ne hm]
    cases hdata : s.dir.lookup m with
    | none => exact Or.inl ⟨rfl, rfl⟩
    | some data =>
      refine Or.inr ⟨data, max (s.synced m) data.length, rfl, le_max_left _ _, ?_⟩
      rw [take_of_length_le (le_max_right _ _)]

theorem recovered_of_recovers (h : Recovers dir b) {k : Nat} (hk : k ≤ s.inFlight.length)
    (hrecords : b.records = numberFrom 1 (s.acked ++ s.inFlight.take k))
    (hlast : b.lastRevision = s.acked.length + k) : Recovered s dir := by
  intro opts
  obtain ⟨log, hopen, hrefines⟩ := h.openLog_plain opts
  refine ⟨log, k, by rw [hopen], hk, ?_, hrefines.index.lastRevision.trans hlast⟩
  rw [← hrecords]
  exact hrefines.readFrom_one

theorem not_recovered_of_dead (h : Dead dir) : ¬ Recovered s dir := by
  intro hrec
  obtain ⟨log, k, hopen, -⟩ := hrec ⟨0, 0⟩
  obtain ⟨dir', e, hfail, -⟩ := h.openLog ⟨0, 0⟩ false ∅
  rw [hfail] at hopen
  cases hopen

/-- The directory of a log has all headers. -/
theorem headed_of_holdsOnly {fs : List LogFile} (h : HoldsOnly dir fs) : Headed dir := by
  intro n hn
  obtain ⟨g, hg, rfl⟩ := h.only n hn
  rw [h.holds g hg, getD_some, length_encodeFile]
  exact Nat.le_add_right _ _

/-- A file whose bytes are all synced survives. -/
theorem Survives.lookup_eq (h : s.Survives dir) {data : Bytes} (hdata : s.dir.lookup n = some data)
    (hsync : s.synced n = data.length) : dir.lookup n = some data := by
  rcases h n with ⟨hnone, -⟩ | ⟨data', k, hdata', hk, hdir⟩
  · rw [hdata] at hnone
    cases hnone
  · rw [hdata] at hdata'
    cases hdata'
    rw [hdir, take_of_length_le (by omega)]

theorem Survives.lookup_none (h : s.Survives dir) (hnone : s.dir.lookup n = none) :
    dir.lookup n = none := by
  rcases h n with ⟨-, hdir⟩ | ⟨data, k, hdata, -⟩
  · exact hdir
  · rw [hnone] at hdata
    cases hdata

/-- What is as in a directory whose bytes are all synced survives. -/
theorem Durable.survives_at (h : Durable base s.synced l) (hn : s.dir.lookup n = base.lookup n)
    (hcrash : s.Survives dir) : base.lookup n = dir.lookup n := by
  by_cases hin : n ∈ base
  · obtain ⟨g, hg, rfl⟩ := h.only.only n hin
    rw [h.only.holds g hg] at hn ⊢
    rw [hcrash.lookup_eq hn (h.all g hg)]
  · have hnone := AList.lookup_eq_none.mpr hin
    rw [hnone, hcrash.lookup_none (hn.trans hnone)]

theorem Durable.survives (h : Durable s.dir s.synced l) (hcrash : s.Survives dir) :
    HoldsOnly dir l.files :=
  h.only.congr fun _ => h.survives_at rfl hcrash

theorem Headed.congr {d d' : Dir} (h : Headed d) (heq : ∀ n, d.lookup n = d'.lookup n) :
    Headed d' := by
  intro n hn
  rw [mem_iff_lookup] at hn
  rw [← heq] at hn ⊢
  exact h n (mem_iff_lookup.mpr hn)

theorem Headed.appendTo {d : Dir} (h : Headed d) (hn : n ∈ d) (x : Bytes) :
    Headed (appendTo d n x) := by
  intro m hm
  rw [lookup_appendTo]
  split
  · have hbase := h n hn
    rw [getD_some, length_append]
    omega
  · next hne => exact h m (((AList.mem_insert _).mp hm).resolve_left hne)

/-- A crash with everything synced: nothing is lost. -/
theorem crash_synced (hb : Durable s.dir s.synced b) (hwf : b.WF) (hdisk : ∀ g ∈ b.files, g.OnDisk)
    (hrecords : b.records = numberFrom 1 (s.acked ++ s.inFlight))
    (hlast : b.lastRevision = (s.acked ++ s.inFlight).length) (hcrash : s.Survives dir) :
    Recovered s dir ↔ Headed dir := by
  have honly := hb.survives hcrash
  refine iff_of_true ?_ (headed_of_holdsOnly honly)
  refine recovered_of_recovers (honly.recovers hwf hdisk) le_rfl ?_ ?_
  · rw [take_length]
    exact hrecords
  · rw [hlast, length_append]

theorem crash_stands {f : IndexFile} (hstands : Stands s f l (s.acked ++ s.inFlight))
    (hdir : Durable s.dir s.synced l) (hcrash : s.Survives dir) : Recovered s dir ↔ Headed dir :=
  crash_synced hdir hstands.wf hstands.disk hstands.records hstands.last hcrash

/-- A crash in a write to the active file keeps some bytes of the batch. -/
theorem Survives.appended {buf : Bytes} (hbase : Durable base s.synced l)
    (hdir : ∀ n, s.dir.lookup n = (appendTo base l.active.name (buf.take w)).lookup n)
    (hcrash : s.Survives dir) :
    ∃ j, ∀ n, (appendTo base l.active.name (buf.take j)).lookup n = dir.lookup n := by
  have hactive := hbase.only.active
  have hsync := hbase.all l.active (List.mem_append_right _ (List.mem_singleton_self _))
  have hfile := hdir l.active.name
  rw [lookup_appendTo, if_pos rfl, hactive, getD_some] at hfile
  rcases hcrash l.active.name with ⟨hnone, -⟩ | ⟨data, k, hdata, hk, hcut⟩
  · rw [hfile] at hnone
    cases hnone
  · rw [hfile] at hdata
    cases hdata
    refine ⟨min (k - (encodeFile l.active.records).length) w, fun n => ?_⟩
    rw [lookup_appendTo]
    split
    · next heq =>
      have hkept : (encodeFile l.active.records).take k = encodeFile l.active.records :=
        take_of_length_le (by omega)
      rw [heq, hcut, hactive, getD_some, List.take_append, take_take, hkept]
    · next hne =>
      refine hbase.survives_at ?_ hcrash
      rw [hdir, lookup_appendTo, if_neg hne]

/-- A crash in a write to a new file keeps some bytes of its header. -/
theorem Survives.created (hbase : Durable base s.synced l)
    (hdir : s.dir = base.insert n (header.take w)) (hcrash : s.Survives dir) :
    ∃ j, ∀ m, (base.insert n (header.take j)).lookup m = dir.lookup m := by
  have hfile : s.dir.lookup n = some (header.take w) := by rw [hdir, lookup_insert]
  rcases hcrash n with ⟨hnone, -⟩ | ⟨data, k, hdata, -, hcut⟩
  · rw [hfile] at hnone
    cases hnone
  · rw [hfile] at hdata
    cases hdata
    refine ⟨min k w, fun m => ?_⟩
    by_cases hm : m = n
    · subst hm
      rw [lookup_insert, hcut, take_take]
    · rw [lookup_insert_ne hm]
      exact hbase.survives_at (by rw [hdir, lookup_insert_ne hm]) hcrash

/-- A crash in a commit. -/
theorem crash_writing (h : Consistent s) (hphase : s.phase = .writing batch w)
    (hcrash : s.Survives dir) : Recovered s dir ↔ Headed dir := by
  have hflight : s.inFlight = batch := by rw [inFlight, hphase]
  obtain ⟨f, l, base, hstands, hbatch, hbase, hdir, -⟩ := h.at hphase
  obtain ⟨j, hj⟩ := hcrash.appended hbase hdir
  have hactive := hbase.only.active
  have hmem : l.active.name ∈ base := mem_iff_lookup.mpr ⟨_, hactive⟩
  have hrec := (hbase.only.recovers hstands.wf hstands.disk).cut hactive hbatch j
  set k := wholeRecords j (numberFrom (l.lastRevision + 1) batch)
  have hmin : batch.take (min k batch.length) = batch.take k := by
    rw [List.take_eq_take_iff, min_assoc, min_self]
  rw [← hmin] at hrec
  have hle : min k batch.length ≤ s.inFlight.length := hflight ▸ min_le_right k batch.length
  refine iff_of_true (recovered_of_recovers (hrec.congr hj) hle ?_ ?_)
    (((headed_of_holdsOnly hbase.only).appendTo hmem _).congr hj)
  · rw [FilesystemLog.records_published, hstands.records, hstands.last, numberFrom_append,
      Nat.add_comm 1, hflight]
  · show l.lastRevision + (batch.take _).length = _
    rw [hstands.last, List.length_take, min_assoc, min_self]

/-- A crash in a rotation. -/
theorem crash_creating {f : IndexFile} (hstands : Stands s f l (s.acked ++ s.inFlight))
    (hne : l.active.records ≠ []) (hbase : Durable base s.synced l)
    (hdir : s.dir = base.insert l.freshName (header.take w)) (hcrash : s.Survives dir) :
    Recovered s dir ↔ Headed dir := by
  obtain ⟨j, hj⟩ := hcrash.created hbase hdir
  have hrec := hbase.only.recovers hstands.wf hstands.disk
  by_cases hshort : j < header.length
  · have hlen : (header.take j).length = j := List.length_take_of_le (Nat.le_of_lt hshort)
    have hdead := hrec.dead hne (hlen.trans_lt hshort)
    refine iff_of_false (not_recovered_of_dead (hdead.congr hj)) fun hheaded => ?_
    have hlook := hj l.freshName
    rw [lookup_insert] at hlook
    have hle := hheaded _ (mem_iff_lookup.mpr ⟨_, hlook.symm⟩)
    rw [← hlook, getD_some, hlen] at hle
    omega
  · rw [take_of_length_le (Nat.le_of_not_lt hshort)] at hj
    have honly := (hbase.only.create hstands.wf hne).congr hj
    have hframe := FilesystemLog.rotate_frame l
    refine iff_of_true (recovered_of_recovers ((hrec.create hbase.only.active hne).congr hj) le_rfl
      ?_ ?_) (headed_of_holdsOnly honly)
    · rw [hframe.1, hstands.records, take_length]
    · rw [hframe.2.1, hstands.last, length_append]

/-- A crash before the first file is created. -/
theorem crash_empty (hacked : s.acked = []) (hflight : s.inFlight = []) (hdir : s.dir = ∅)
    (hcrash : s.Survives dir) : Recovered s dir ↔ Headed dir := by
  have hnone : ∀ n, dir.lookup n = none := fun n => hcrash.lookup_none (by rw [hdir]; rfl)
  obtain rfl := eq_empty hnone
  refine iff_of_true (fun opts => ?_) (fun n hn => absurd hn (AList.notMem_empty n))
  obtain ⟨log, hopen, hrefines, -, -, -⟩ := LogSystem.openLog_empty opts false
  refine ⟨log, 0, by rw [hopen], Nat.zero_le _, ?_, ?_⟩
  · rw [hrefines.readFrom 1, hacked, hflight]
    rfl
  · rw [hacked]
    exact hrefines.index.lastRevision

/-- A crash in the creation of the first file. -/
theorem crash_first (hacked : s.acked = []) (hflight : s.inFlight = [])
    (hdir : s.dir = AList.insert (FileName.dense 1) (header.take w) ∅) (hcrash : s.Survives dir) :
    Recovered s dir ↔ Headed dir := by
  have hlook := LogSystem.lookup_singleton rfl (header.take w)
  rw [← hdir] at hlook
  have hfile : ∃ j, ∀ n, dir.lookup n = if n = .dense 1 then some (header.take j) else none := by
    rcases hcrash (.dense 1) with ⟨hnone, -⟩ | ⟨data, k, hdata, -, hcut⟩
    · rw [hlook, if_pos rfl] at hnone
      cases hnone
    · rw [hlook, if_pos rfl] at hdata
      cases hdata
      refine ⟨min k w, fun n => ?_⟩
      split
      · next heq => rw [heq, hcut, take_take]
      · next hne => exact hcrash.lookup_none (by rw [hlook, if_neg hne])
  obtain ⟨j, hj⟩ := hfile
  rcases LogSystem.created_first j hj with ⟨hshort, hdead⟩ | ⟨hlong, hrec⟩
  · refine iff_of_false (not_recovered_of_dead hdead) fun hheaded => ?_
    have hone := hj (.dense 1)
    rw [if_pos rfl] at hone
    have hle := hheaded _ (mem_iff_lookup.mpr ⟨_, hone⟩)
    rw [hone, getD_some, List.length_take] at hle
    omega
  · rw [take_of_length_le hlong] at hj
    refine iff_of_true (recovered_of_recovers hrec (Nat.zero_le _) ?_ ?_)
      (headed_of_holdsOnly (LogSystem.holdsOnly_emptyLog ⟨0, 0⟩ hj))
    · rw [hacked, hflight]
      rfl
    · rw [hacked]
      rfl

/-- Whatever the writer was doing. -/
theorem Consistent.crash (h : Consistent s) (hcrash : s.Survives dir) :
    Recovered s dir ↔ Headed dir := by
  cases hphase : s.phase with
  | ready =>
    obtain ⟨f, l, hstands, hdir⟩ := h.at hphase
    have hflight : s.inFlight = [] := by rw [inFlight, hphase]
    refine crash_stands (l := l) (f := f) ?_ hdir hcrash
    rwa [hflight, append_nil]
  | writing batch w => exact crash_writing h hphase hcrash
  | flushed batch =>
    obtain ⟨f, l, hstands, hbatch, hdir⟩ := h.at hphase
    have hflight : s.inFlight = batch := by rw [inFlight, hphase]
    have hpub := hstands.publish hbatch rfl
    refine crash_synced hdir hpub.wf hpub.disk ?_ ?_ hcrash
    · rw [hflight]
      exact hpub.records
    · rw [hflight]
      exact hpub.last
  | published batch | returning batch =>
    obtain ⟨f, l, hstands, hdir⟩ := h.at hphase
    have hflight : s.inFlight = batch := by rw [inFlight, hphase]
    exact crash_stands (hflight ▸ hstands) hdir hcrash
  | creating batch written =>
    have hflight : s.inFlight = batch := by rw [inFlight, hphase]
    cases written with
    | none =>
      rcases h.at hphase with ⟨hfirst, hdir⟩ | ⟨f, l, hstands, -, hdir⟩
      · exact crash_empty hfirst.acked (hflight.trans hfirst.batch) hdir hcrash
      · exact crash_stands (hflight ▸ hstands) hdir hcrash
    | some w =>
      obtain ⟨-, hcases⟩ := h.at hphase
      rcases hcases with ⟨hfirst, hdir⟩ | ⟨f, l, base, hstands, hne, hbase, hdir⟩
      · exact crash_first hfirst.acked (hflight.trans hfirst.batch) hdir hcrash
      · exact crash_creating (hflight ▸ hstands) hne hbase hdir hcrash
  | headed batch =>
    have hflight : s.inFlight = batch := by rw [inFlight, hphase]
    rcases h.at hphase with ⟨hfirst, hdir, -⟩ | ⟨f, l, hstands, hne, hdir⟩
    · rw [← take_length (l := header)] at hdir
      exact crash_first hfirst.acked (hflight.trans hfirst.batch) hdir hcrash
    · have hrotated : Stands { s with
          closed := s.closed ++ s.active.toList
          active := some (freshFile s.lastRevision) } (freshFile s.lastRevision)
          l.rotate (s.acked ++ s.inFlight) := hflight ▸ hstands.enter hne rfl
      exact crash_synced hdir hrotated.wf hrotated.disk hrotated.records hrotated.last hcrash

end Crash

/-- After a crash at any step, opening the directory finds the acknowledged records and a part of the
batch that was being written, exactly if no file is left with less than its header. -/
theorem crash_recovery_iff {opts : Options} {as : List WriteAction} {s : Writer} {dir : Dir}
    (hrun : Transition.run step (init opts) as = some s) (hcrash : s.Survives dir) :
    s.Recovered dir ↔ Headed dir :=
  (consistent_run hrun).crash hcrash

/-- The first file, and one commit. -/
def firstCommit : List WriteAction :=
  [.create, .write header.length, .sync, .enter, .ack, .begin [LogSystem.putKey 97], .write 100, .sync,
    .publish, .ack]

/-- The second of two batches is torn in its second record. -/
theorem crash_recovery_torn : ∃ s, Transition.run step (init ⟨0, 0⟩) (firstCommit ++
    [.begin [LogSystem.putKey 98, LogSystem.putKey 99], .write 40]) = some s ∧
      s.Survives (s.crashAt (.dense 1) 40) ∧ s.Recovered (s.crashAt (.dense 1) 40) := by
  obtain ⟨s, hs, hmem, hsync, hheaded⟩ : ∃ s, run step (init ⟨0, 0⟩) (firstCommit ++
      [.begin [LogSystem.putKey 98, LogSystem.putKey 99], .write 40]) = some s ∧
        FileName.dense 1 ∈ s.dir ∧ s.synced (.dense 1) ≤ 40 ∧ Headed (s.crashAt (.dense 1) 40) :=
    by decide +kernel
  have hcrash := survives_crashAt hmem hsync
  exact ⟨s, hs, hcrash, (crash_recovery_iff hs hcrash).mpr hheaded⟩

/-- A rotation has created the next file, and nothing of its header is on disk: the log cannot be
opened, with one record acknowledged. -/
theorem crash_recovery_fails : ∃ s dir, Transition.run step (init ⟨0, 0⟩) (firstCommit ++
    [.rotate, .create]) = some s ∧ s.Survives dir ∧ s.acked.length = 1 ∧ ¬ s.Recovered dir := by
  obtain ⟨s, hs, hmem, hsync, hacked, hopen⟩ : ∃ s,
      run step (init ⟨0, 0⟩) (firstCommit ++ [.rotate, .create]) = some s ∧
      FileName.dense 2 ∈ s.dir ∧ s.synced (.dense 2) ≤ 0 ∧ s.acked.length = 1 ∧
        (openLog ⟨0, 0⟩ false ∅ (s.crashAt (.dense 2) 0)).2.isOk = false :=
    by decide +kernel
  refine ⟨s, _, hs, survives_crashAt hmem hsync, hacked, fun hrec => ?_⟩
  obtain ⟨log, k, hlog, -⟩ := hrec ⟨0, 0⟩
  rw [hlog] at hopen
  cases hopen

end Writer

end CloudEtcd
