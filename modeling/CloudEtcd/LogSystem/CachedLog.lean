/-
# CloudEtcd.LogSystem.CachedLog — the log with its record cache and its mappings.

`GetLogEntry` looks into the record cache, reads the active file at a position, or reads a closed file
that it maps (or, where files cannot be mapped, keeps open) on first use; `Read` goes through the files by
name.  `CachedLog` is the log of `LogSystem` with the cache and with what is mapped: a mapping shows the
bytes that the file had when it was made, also after compaction has renamed another file over it.  Beside
it stands what was committed, revision by revision.

Other steps come between the sections of a call of `GetLogEntry` (`ReadingLog`).  A call that has found a file
which a compaction then swaps out of the index opens what has the file's name now, and reads it with the old
index.
-/
import CloudEtcd.LogSystem.FileIndex
import CloudEtcd.Persistence.Reading
import CloudEtcd.Persistence.RoundTrip

namespace CloudEtcd

open FilesystemLog LogSystem LogCodec
open List (mem_cons mem_append append_nil mem_append_left mem_append_right mem_cons_self mem_cons_of_mem
  mem_map)

variable {dir : Dir} {g : LogFile}

/-- The errors of `GetLogEntry` and `Read`. -/
inductive GetError where
  | read (e : ReadError)
  /-- "failed to decode log record ...: ..." -/
  | decode (revision : Nat)
  deriving DecidableEq, Repr

/-! ## `Read` -/

namespace DiskLog

/-- The inner loop of `Read`: the calls of the callback, as long as it returns `true`. -/
def decodeCalls (D : Decoder) : List (Nat × Bytes) → List (Nat × LogRecord) × Option GetError
  | [] => ([], none)
  | (revision, m) :: ms =>
    match D.decode m with
    | none => ([], some (.decode revision))
    | some record => ((revision, record) :: (decodeCalls D ms).1, (decodeCalls D ms).2)

/-- `Read`: the calls of the callback, as long as it returns `true`, and the error that ended it. -/
def readCalls (D : Decoder) (dir : Dir) (fromRevision : Nat) :
    List IndexFile → List (Nat × LogRecord) × Option GetError
  | [] => ([], none)
  | f :: fs =>
    match readFile dir fromRevision f with
    | .error e => ([], some (.read e))
    | .ok ms =>
      match decodeCalls D ms with
      | (calls, some e) => (calls, some e)
      | (calls, none) =>
        (calls ++ (readCalls D dir fromRevision fs).1, (readCalls D dir fromRevision fs).2)

end DiskLog

open DiskLog (fileData)

/-! ## The log with its cache and its mappings -/

/-- The log as its callers see it. -/
structure CachedLog where
  system : LogSystem
  /-- Whether the platform can map files. -/
  mmap : Bool
  cache : RecordCache
  /-- The closed files that are mapped, or kept open where files cannot be mapped, with the bytes that
  the mapping or the handle shows. -/
  held : Dir
  /-- The records that were committed, from revision 1 on. -/
  committed : List LogRecord

namespace CachedLog

open LogSystem (Action)

/-- `loadLocked` opens and maps a file once. -/
def hold (dir held : Dir) (f : IndexFile) : Dir :=
  if f.name ∈ held then held
  else
    match fileData dir f with
    | .ok data => held.insert f.name data
    | .error _ => held

/-- The log as a read of a closed file finds it: what is held comes first. -/
def view (held : Dir) (log : DiskLog) : DiskLog := { log with dir := held ∪ log.dir }

/-- `recordBytes`: a positioned read of the active file, or a read of a closed one. -/
def fetch (s : CachedLog) (p : Process) (revision : Nat) : Except ReadError Bytes :=
  match p.log.findFile revision with
  | none => .error (.notFound revision)
  | some f =>
    if f = p.log.active then p.log.recordBytes revision
    else (view s.held p.log).recordBytes revision

/-- What `recordBytes` leaves behind: a closed file is mapped and indexed. -/
def loaded (s : CachedLog) (p : Process) (revision : Nat) : CachedLog :=
  match p.log.findFile revision with
  | none => s
  | some f =>
    if f = p.log.active then s
    else
      let closed := p.log.closed.map fun c =>
        if c.first = f.first then
          ((DiskLog.load (view s.held p.log).dir c).toOption.map Prod.fst).getD c
        else c
      { s with
        system := { s.system with status := .up { p with log := { p.log with closed := closed } } }
        held := hold p.log.dir s.held f }

/-- `Decode`, with the error of `GetLogEntry`. -/
def decoded (D : Decoder) (revision : Nat) : Except ReadError Bytes → Except GetError LogRecord
  | .error e => .error (.read e)
  | .ok m =>
    match D.decode m with
    | none => .error (.decode revision)
    | some record => .ok record

/-- What a call of `GetLogEntry` returns that nothing interleaves with. -/
def getLogEntry (D : Decoder) (s : CachedLog) (p : Process) (revision : Nat) :
    Except GetError LogRecord :=
  match (s.cache.get revision).2 with
  | some record => .ok record
  | none => decoded D revision (s.fetch p revision)

/-- What a step of a compaction maps, and what the swap of the index lets go. -/
def heldAfter (p : Process) (held : Dir) : Dir :=
  match p.job with
  | some (.measuring (f :: _) _) => hold p.log.dir held f
  | some (.grouped (g :: _)) =>
    if g.rewritten then g.files.foldl (hold p.log.dir) held else held
  | some (.renamed group _ _) => held.removeAll (group.map IndexFile.name)
  | _ => held

/-- The records that an action adds to the log. -/
def added (p : Process) : Action → List LogRecord
  | .commit position batch => if position = p.log.lastRevision then batch else []
  | .crash cut => cut.survivors p.log.lastRevision
  | _ => []

/-- The numbers of the records are `int64`s; others do not exist. -/
def Typed : Action → Prop
  | .commit _ batch => ∀ r ∈ batch, TypedRecord r
  | .crash cut => ∀ r ∈ cut.batch, TypedRecord r
  | _ => True

instance (a : Action) : Decidable (Typed a) := by
  unfold Typed
  split <;> infer_instance

/-- The cache, the mappings and the history after an action of the log. -/
def after (s : CachedLog) (a : Action) (system : LogSystem) : CachedLog :=
  match s.system.status with
  | .down _ =>
    match a with
    | .start opts =>
      { s with
        system := system
        cache := RecordCache.new opts.withDefaults.cacheBytes
        held := ∅ }
    | _ => { s with system := system }
  | .up p =>
    let s := { s with system := system, committed := s.committed ++ added p a }
    match a with
    | .commit _ _ =>
      { s with
        cache := (numberFrom (p.log.lastRevision + 1) (added p a)).foldl
          (fun c r => c.put r.1 r.2) s.cache }
    | .compactStep _ => { s with held := heldAfter p s.held }
    | _ => s

/-- A machine that has never run the log. -/
def init (mmap archiving : Bool) : CachedLog where
  system := LogSystem.init archiving
  mmap := mmap
  cache := RecordCache.new 0
  held := ∅
  committed := []

/-- The record was committed at the revision. -/
def Committed (s : CachedLog) (revision : Nat) (record : LogRecord) : Prop :=
  1 ≤ revision ∧ s.committed[revision - 1]? = some record

/-- The bytes of a file of the log: the active one is in the directory, a closed one may be held. -/
def content (s : CachedLog) (p : Process) (f : IndexFile) : Option Bytes :=
  if f = p.log.active then p.log.dir.lookup f.name
  else (view s.held p.log).dir.lookup f.name

/-- The revisions of the records that a scan finds. -/
def scanned (data : Bytes) : List Nat :=
  match scan data with
  | .ok found => found.revisions
  | .error _ => []

/-- A file of the log has a record with the revision. -/
def Present (s : CachedLog) (p : Process) (revision : Nat) : Prop :=
  ∃ f ∈ p.log.files, ∃ data ∈ s.content p f, revision ∈ scanned data

instance (s : CachedLog) (p : Process) (revision : Nat) : Decidable (s.Present p revision) :=
  inferInstanceAs (Decidable (∃ f ∈ p.log.files, ∃ data ∈ s.content p f, revision ∈ scanned data))

/-- The files of the index that a compaction has renamed a new file in place of. -/
def replaced : Option CompactJob → List IndexFile
  | some (.renamed group _ _) => group
  | _ => []

/-- The files that the action swaps out of the index. -/
def swapped (s : CachedLog) : Action → List IndexFile
  | .compactStep _ =>
    match s.system.status with
    | .up p => replaced p.job
    | .down _ => []
  | _ => []

/-! ## Calls of `GetLogEntry` -/

/-- A call of `GetLogEntry`. -/
abbrev EntryRead := Reading IndexFile GetError

namespace EntryRead

/-- `findFile`. -/
def find (p : Process) : EntryRead → EntryRead :=
  Reading.find fun r =>
    match p.log.findFile r with
    | none => .error (.read (.notFound r))
    | some f => .ok (decide (f = p.log.active))

/-- What the read returns: of a file that is out of the index, by its own index entry, from what the directory
has under its name. -/
def answer (D : Decoder) (s : CachedLog) (p : Process) (r : Nat) : Option IndexFile → Except GetError LogRecord
  | none => decoded D r (s.fetch p r)
  | some f => decoded D r ({ p.log with closed := [], active := f }.recordBytes r)

/-- The read and the decoding.  What was read from a mapping is not cached. -/
def read (D : Decoder) (s : CachedLog) (p : Process) : EntryRead → EntryRead :=
  Reading.read (answer D s p) fun r active retired =>
    let mapped := retired.isNone && (p.log.findFile r).any fun f => f.name ∈ s.held
    !(s.mmap && (!active || mapped))

/-- What the read leaves behind. -/
def loaded (s : CachedLog) (p : Process) : EntryRead → CachedLog
  | .found r false none => s.loaded p r
  | _ => s

/-- The file of the group that has the revision in its range. -/
def covering (group : List IndexFile) (revision : Nat) : Option IndexFile :=
  group.find? fun f => f.first ≤ revision ∧ revision ≤ f.last

/-- The files of the group, which the compaction has indexed, are out of the index. -/
def retire (dir : Dir) (group : List IndexFile) : EntryRead → EntryRead :=
  Reading.retire fun r => (covering group r).map fun f =>
    ((DiskLog.load dir f).toOption.map Prod.fst).getD f

end EntryRead

end CachedLog

/-- The log with the calls of `GetLogEntry`. -/
structure ReadingLog where
  log : CachedLog
  reads : List CachedLog.EntryRead := []

namespace ReadingLog

open CachedLog (EntryRead)

/-- What can happen next: an action of the log, or a section of a call. -/
inductive Action where
  | act (a : LogSystem.Action)
  | get (revision : Nat)
  | find (n : Nat)
  | read (n : Nat)
  | put (n : Nat)

/-- One step.  The calls end with the process. -/
def step (D : Decoder) (s : ReadingLog) (a : Action) : Option ReadingLog :=
  match a, s.log.system.status with
  | .act a, _ =>
    if CachedLog.Typed a then
      (s.log.system.step a).map fun system =>
        { log := s.log.after a system
          reads :=
            match system.status with
            | .up _ => s.reads.map
                (EntryRead.retire (s.log.held ∪ s.log.system.dir) (s.log.swapped a))
            | .down _ => [] }
    else none
  | _, .down _ => none
  | .get revision, .up _ =>
    some {
      log := { s.log with cache := (s.log.cache.get revision).1 }
      reads := s.reads ++ [Reading.look s.log.cache revision] }
  | .find n, .up p => some { s with reads := s.reads.modify n (EntryRead.find p) }
  | .read n, .up p =>
    some {
      log := s.reads[n]?.elim s.log (EntryRead.loaded s.log p)
      reads := s.reads.modify n (EntryRead.read D s.log p) }
  | .put n, .up _ =>
    some {
      log := { s.log with cache := s.reads[n]?.elim s.log.cache (Reading.cache s.log.cache) }
      reads := s.reads.modify n Reading.put }

/-- The condition on a step: it does not swap a file out of the index that a call is about to read. -/
def SparesReads (s : ReadingLog) : Action → Prop
  | .act a => ∀ x ∈ s.reads, ∀ r ∈ x.reads, EntryRead.covering (s.log.swapped a) r = none
  | _ => True

instance (s : ReadingLog) : ∀ a, Decidable (s.SparesReads a)
  | .act a => inferInstanceAs (Decidable (∀ x ∈ s.reads, ∀ r ∈ x.reads,
      EntryRead.covering (s.log.swapped a) r = none))
  | .get _ | .find _ | .read _ | .put _ => isTrue trivial

/-- A machine that has never run the log. -/
def init (mmap archiving : Bool) : ReadingLog := { log := CachedLog.init mmap archiving }

end ReadingLog

/-! ## What was committed and what the files hold -/

/-- The log holds records of the history, and ends where it ends. -/
structure Tells (history : List LogRecord) (l : FilesystemLog) : Prop where
  last : l.lastRevision = history.length
  records : ∀ r ∈ l.records, history[r.1 - 1]? = some r.2

variable {batch : List LogRecord}

theorem getElem_of_mem_numberFrom {first : Nat} {r : Nat × LogRecord}
    (hr : r ∈ numberFrom first batch) : first ≤ r.1 ∧ batch[r.1 - first]? = some r.2 := by
  induction batch generalizing first with
  | nil => cases hr
  | cons x batch ih =>
    rcases mem_cons.mp hr with rfl | hr
    · simp
    · obtain ⟨hle, hget⟩ := ih hr
      refine ⟨by omega, ?_⟩
      have hsucc : r.1 - first = r.1 - (first + 1) + 1 := by omega
      rw [hsucc, List.getElem?_cons_succ]
      exact hget

variable {t : Touch}

namespace Tells

variable {history : List LogRecord} {l l' : FilesystemLog}

section

variable (h : Tells history l)
include h

theorem mono (hlast : l'.lastRevision = l.lastRevision) (hsub : ∀ r ∈ l'.records, r ∈ l.records) :
    Tells history l' :=
  ⟨hlast.trans h.last, fun r hr => h.records r (hsub r hr)⟩

theorem rotate : Tells history l.rotate := by
  refine h.mono (rotate_frame l).2.1 fun r hr => ?_
  rwa [(rotate_frame l).1] at hr

theorem published (hwf : l.WF) (batch : List LogRecord) :
    Tells (history ++ batch) (l.published batch) := by
  refine ⟨?_, fun r hr => ?_⟩
  · show l.lastRevision + batch.length = _
    rw [h.last, List.length_append]
  · rw [records_published] at hr
    rcases mem_append.mp hr with hr | hr
    · have hbounds := hwf.record_bounds hr
      have hlast := h.last
      rw [List.getElem?_append_left (by omega)]
      exact h.records r hr
    · obtain ⟨hle, hget⟩ := getElem_of_mem_numberFrom hr
      have hlast := h.last
      rw [List.getElem?_append_right (by omega)]
      rw [← hget]
      congr 1
      omega

theorem same : Tells (history ++ []) l := by
  rwa [append_nil]

end

/-- Compaction drops records. -/
theorem compacts {b b' : FilesystemLog} (h : Tells history b) (hcompacts : Compacts b b') :
    Tells history b' := by
  rcases hcompacts with rfl | ⟨pre, group, rest, kept, hwf, hclosed, hne, hsub, rfl⟩
  · exact h
  · exact h.mono rfl fun r hr => (mem_records_compactGroup hwf hclosed hne hsub).1 hr

/-- What a step of a compaction leaves behind tells the same history. -/
theorem effect {p p' : Process} {b b' : FilesystemLog} (h : Tells history b)
    (hrunning : Running p l b) (heffect : StepEffect p l b t p' l' b')
    (hlast : l'.lastRevision = l.lastRevision) : Tells history b' := by
  cases heffect with
  | stay | swap | enqueue => exact h
  | append batch hbatch =>
    have hnil : batch = [] := by
      change l.lastRevision + batch.length = l.lastRevision at hlast
      exact List.length_eq_zero_iff.mp (by omega)
    subst hnil
    have hpub := h.published hrunning.recovers.wf []
    rwa [append_nil] at hpub
  | rotate => exact h.rotate
  | rename _ _ _ _ _ _ _ hb' | removal _ _ _ hb' => exact h.compacts hb'

end Tells

/-! ## What is held -/

/-- What is held are closed files of the log, with their bytes, and while a compaction has a new file in
place that the index does not know yet, the files of the group are held. -/
structure Holding (held : Dir) (l : FilesystemLog) (job : Option CompactJob) : Prop where
  only : ∀ n data, held.lookup n = some data →
    ∃ g ∈ l.closed, g.name = n ∧ data = encodeFile g.records
  group : ∀ f ∈ CachedLog.replaced job, f.name ∈ held

variable {l : FilesystemLog} {job : Option CompactJob}

/-- In the directory a closed file is whole, or it belongs to the group that is being replaced. -/
theorem JobOK.whole {b : FilesystemLog} (h : JobOK dir l job b) (hg : g ∈ l.closed) :
    dir.lookup g.name = some (encodeFile g.records) ∨
      ∃ f ∈ CachedLog.replaced job, f.name = g.name := by
  cases h with
  | idle hdir | measuring hdir | grouped hdir => exact Or.inl (hdir.holds g (mem_append_left _ hg))
  | @renamed _ _ _ _ lgroup _ _ _ hdir hgroup =>
    rw [hdir.closed] at hg
    by_cases hin : g ∈ lgroup
    · obtain ⟨f, hf, hdesc⟩ := forall₂_mem hgroup hin
      exact Or.inr ⟨f, hf, hdesc.name⟩
    · refine Or.inl (hdir.others g (mem_append_left _ ?_))
      simp only [mem_append] at hg ⊢
      tauto
  | replacing hclosed hdir =>
    rw [hclosed] at hg
    rcases mem_append.mp hg with hg | hg
    · exact Or.inl (hdir.others g (mem_append_left _ (mem_append_left _ hg)))
    · rcases mem_cons.mp hg with rfl | hg
      · exact Or.inl hdir.new
      · exact Or.inl (hdir.others g (mem_append_left _ (mem_append_right _ hg)))

variable {f : IndexFile} {data : Bytes}

namespace Holding

variable {held : Dir} {l l' : FilesystemLog} {job job' : Option CompactJob} {p : Process}
  {b : FilesystemLog}
variable {g : LogFile}

theorem nothing (l : FilesystemLog) : Holding ∅ l none := ⟨nofun, nofun⟩

theorem mono (h : Holding held l job) (hsub : ∀ g ∈ l.closed, g ∈ l'.closed) :
    Holding held l' job :=
  ⟨fun n data hn =>
    have ⟨g, hg, hname⟩ := h.only n data hn
    ⟨g, hsub g hg, hname⟩, h.group⟩

/-- Another place of the compaction than the one before the swap. -/
theorem withJob (h : Holding held l job) (hjob : CachedLog.replaced job' = []) : Holding held l job' :=
  ⟨h.only, by rw [hjob]; exact nofun⟩

/-- What is held of a file are its bytes. -/
theorem lookup (h : Holding held l job) (hwf : l.WF) (hg : g ∈ l.closed)
    (hdata : held.lookup g.name = some data) : data = encodeFile g.records := by
  obtain ⟨g', hg', hname, rfl⟩ := h.only _ _ hdata
  have hfirst : g'.first = g.first := by rw [← g'.first_name, hname, g.first_name]
  rw [hwf.file_eq (mem_append_left _ hg') (mem_append_left _ hg) hfirst]

/-- A read of a closed file finds its bytes. -/
theorem view (hheld : Holding held l p.job) (h : Running p l b) (hg : g ∈ l.closed) :
    (CachedLog.view held p.log).dir.lookup g.name = some (encodeFile g.records) := by
  by_cases hin : g.name ∈ held
  · obtain ⟨data, hdata⟩ := Dir.mem_iff_lookup.mp hin
    show (held ∪ p.log.dir).lookup g.name = _
    rw [AList.lookup_union_left hin, hdata, hheld.lookup h.wf hg hdata]
  · show (held ∪ p.log.dir).lookup g.name = _
    rw [AList.lookup_union_right hin]
    exact (h.job.whole hg).resolve_right fun ⟨f, hf, hname⟩ => hin (hname ▸ hheld.group f hf)

/-- The active file is not held. -/
theorem active (hheld : Holding held l job) (hwf : l.WF) : l.active.name ∉ held := by
  intro hin
  obtain ⟨data, hdata⟩ := Dir.mem_iff_lookup.mp hin
  obtain ⟨g, hg, hname, -⟩ := hheld.only _ _ hdata
  exact hwf.closed_name_ne hg hname

/-- One more file is mapped. -/
theorem hold (h : Holding held l job) (hg : g ∈ l.closed) (hdesc : Describes f g)
    (hdata : ∀ data, fileData dir f = .ok data → data = encodeFile g.records) :
    Holding (CachedLog.hold dir held f) l job := by
  unfold CachedLog.hold
  split
  · exact h
  · split
    · next data hfile =>
      refine ⟨fun n data' hn => ?_, fun f' hf' => (AList.mem_insert _).mpr (Or.inr (h.group f' hf'))⟩
      by_cases heq : n = f.name
      · subst heq
        rw [AList.lookup_insert] at hn
        cases hn
        exact ⟨g, hg, hdesc.name.symm, hdata _ hfile⟩
      · rw [AList.lookup_insert_ne heq] at hn
        exact h.only n data' hn
    · exact h

end Holding

variable {held : Dir}

namespace CachedLog

theorem mem_hold_of_mem {n : FileName} (h : n ∈ held) : n ∈ hold dir held f := by
  unfold hold
  split
  · exact h
  · split
    · exact (AList.mem_insert _).mpr (Or.inr h)
    · exact h

theorem mem_hold_self (h : fileData dir f = .ok data) : f.name ∈ hold dir held f := by
  unfold hold
  split
  · next hin => exact hin
  · rw [h]
    exact (AList.mem_insert _).mpr (Or.inl rfl)

end CachedLog

/-- A file that is long enough for its index entry is whole: one that was rewritten in place is
shorter. -/
theorem Describes.lookup_of_fileData (h : Describes f g)
    (hcontent : ∀ data, dir.lookup g.name = some data →
      ∃ rs, rs.Sublist g.records ∧ data = encodeFile rs) (hdata : fileData dir f = .ok data) :
    dir.lookup g.name = some (encodeFile g.records) := by
  rw [fileData, h.name] at hdata
  cases hlookup : dir.lookup g.name with
  | none =>
    rw [hlookup] at hdata
    cases hdata
  | some stored =>
    obtain ⟨rs, hsub, rfl⟩ := hcontent stored hlookup
    rw [hlookup] at hdata
    simp only [h.size] at hdata
    by_cases heq : rs = g.records
    · rw [heq]
    · rw [if_pos (length_encodeFile_lt hsub heq)] at hdata
      cases hdata

/-- The bytes of a described file that is whole. -/
theorem Describes.fileData (h : Describes f g)
    (hdata : dir.lookup g.name = some (encodeFile g.records)) :
    fileData dir f = .ok (encodeFile g.records) := by
  rw [DiskLog.fileData, h.name, hdata]
  simp [h.size]

variable {fs : List IndexFile} {gs : List LogFile}

/-- A rewritten group is mapped, file by file. -/
theorem Holding.holdAll (hfs : List.Forall₂ Describes fs gs) (hgs : ∀ g ∈ gs, g ∈ l.closed)
    (hdir : Holds dir gs) : ∀ {held : Dir}, Holding held l job →
      Holding (fs.foldl (CachedLog.hold dir) held) l job ∧
        (∀ n ∈ held, n ∈ fs.foldl (CachedLog.hold dir) held) ∧
        ∀ f ∈ fs, f.name ∈ fs.foldl (CachedLog.hold dir) held := by
  induction hfs with
  | nil => exact fun h => ⟨h, fun _ hn => hn, fun _ hf => by cases hf⟩
  | @cons f g fs gs hfg _ ih =>
    intro held h
    have hfile := hfg.fileData (hdir g mem_cons_self)
    obtain ⟨hheld, hkeep, hall⟩ := ih (fun g' hg' => hgs g' (mem_cons_of_mem _ hg'))
      (fun g' hg' => hdir g' (mem_cons_of_mem _ hg'))
      (h.hold (hgs g mem_cons_self) hfg fun data hdata => by
        rw [hfile] at hdata
        exact (Except.ok.inj hdata).symm)
    refine ⟨hheld, fun n hn => hkeep n (CachedLog.mem_hold_of_mem hn), fun f' hf' => ?_⟩
    rcases mem_cons.mp hf' with rfl | hf'
    · exact hkeep _ (CachedLog.mem_hold_self hfile)
    · exact hall f' hf'

variable {group : List IndexFile}

/-- The swap of the index lets the files of the group go. -/
theorem Holding.swap {job' : Option CompactJob} (h : Holding held l job) (hwf : l.WF)
    {pre lgroup rest : List LogFile} {kept : List (Nat × LogRecord)}
    (hgroup : List.Forall₂ Describes group lgroup) (hclosed : l.closed = pre ++ lgroup ++ rest)
    (hne : lgroup ≠ []) (hsub : kept.Sublist (lgroup.flatMap LogFile.records))
    (hjob : CachedLog.replaced job' = []) :
    Holding (held.removeAll (group.map IndexFile.name)) (l.compactGroup lgroup kept) job' := by
  refine ⟨fun n data hn => ?_, by rw [hjob]; exact nofun⟩
  rw [Dir.lookup_removeAll] at hn
  split at hn
  · cases hn
  · next hout =>
    obtain ⟨g, hg, hname, hdata⟩ := h.only n data hn
    refine ⟨g, ?_, hname, hdata⟩
    rw [(compactGroup_spec hwf hclosed hne hsub).1]
    rw [hclosed] at hg
    have hnot : g ∉ lgroup := by
      intro hin
      obtain ⟨f, hf, hdesc⟩ := forall₂_mem hgroup hin
      exact hout (mem_map.mpr ⟨f, hf, hdesc.name.trans hname⟩)
    simp only [mem_append, mem_cons] at hg ⊢
    tauto

end CloudEtcd
