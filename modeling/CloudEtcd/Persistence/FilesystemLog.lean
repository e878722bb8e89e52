/-
# CloudEtcd.Persistence.FilesystemLog — the log on files (`pkg/persistence/filesystemlog`).

The log is a row of files: closed ones, each dense (it holds every revision of its range) or sparse
(compaction kept only the live records), and the active file that commits append to.  A file is
modelled by the records it decodes to and by its size in bytes; names, handles and memory mappings
are left out, and so is the archive.

`compact` is `Compact` with a `live` function that does not move.  The background goroutine asks
`live` record by record while the index moves on; `Compaction` is the same code cut at those calls.
-/
import CloudEtcd.Persistence.LogCodec
import CloudEtcd.Persistence.RecordCache

namespace CloudEtcd

open LogCodec

/-! ## Files -/

/-- `Options`, without the archive and the age limit. -/
structure Options where
  cacheBytes : Int
  rotateBytes : Int

/-- The defaults that `NewFilesystemLogWithOptions` fills in. -/
def Options.withDefaults (o : Options) : Options where
  cacheBytes := if o.cacheBytes = 0 then 256 * 2 ^ 20 else o.cacheBytes
  rotateBytes := if o.rotateBytes ≤ 0 then 64 * 2 ^ 20 else o.rotateBytes

/-- `fileInfo` and the content of one file: its records with their revisions, and its size. -/
structure LogFile where
  first : Nat
  last : Nat
  sparse : Bool
  records : List (Nat × LogRecord)
  size : Nat

namespace LogFile

/-- The number of records in the file. -/
def count (f : LogFile) : Nat := f.records.length

/-- `logFile.position` and the record there.  The binary search over the revisions of a sparse file
finds the first one that is not below the wanted revision. -/
def entry (f : LogFile) (revision : Nat) : Except LogError LogRecord :=
  if f.sparse then
    match f.records.find? fun r => revision ≤ r.1 with
    | some r => if r.1 = revision then .ok r.2 else .error (.compacted revision)
    | none => .error (.compacted revision)
  else
    match f.records[revision - f.first]? with
    | some r => .ok r.2
    | none => .error (.notFound revision)

end LogFile

/-- Consecutive revisions for a list of records. -/
def numberFrom (first : Nat) : List LogRecord → List (Nat × LogRecord)
  | [] => []
  | record :: records => (first, record) :: numberFrom (first + 1) records

/-! ## The log -/

/-- `FilesystemLog`: `files` is `closed` and, last, `active`. -/
structure FilesystemLog where
  opts : Options
  closed : List LogFile
  active : LogFile
  lastRevision : Nat
  cache : RecordCache

/-- The errors with which `commitBatch` refuses a batch. -/
inductive CommitError where
  /-- "batch contains no transactions" -/
  | noTransactions
  /-- "batch is not contiguous with the log" -/
  | notContiguous (lastLogPosition lastRevision : Nat)
  deriving DecidableEq, Repr

namespace FilesystemLog

/-- The files in order. -/
def files (l : FilesystemLog) : List LogFile := l.closed ++ [l.active]

/-- Every record the files hold, with its revision. -/
def records (l : FilesystemLog) : List (Nat × LogRecord) := l.files.flatMap LogFile.records

/-- `newActiveFile`: an empty file for the revision after `lastRevision`. -/
def newActiveFile (lastRevision : Nat) : LogFile where
  first := lastRevision + 1
  last := lastRevision
  sparse := false
  records := []
  size := header.length

/-- `findFile` and `position`: the record that the files hold for a revision.  The files are
searched from the end. -/
def fileEntry (l : FilesystemLog) (revision : Nat) : Except LogError LogRecord :=
  match l.files.reverse.find? fun f => f.first ≤ revision with
  | some f => if revision ≤ f.last then f.entry revision else .error (.notFound revision)
  | none => .error (.notFound revision)

/-- `GetLogEntry`: the cache first, then the files.  A record read from the active file is put in
the cache. -/
def getLogEntry (l : FilesystemLog) (revision : Nat) : FilesystemLog × Except LogError LogRecord :=
  match l.cache.get revision with
  | (cache, some record) => ({ l with cache := cache }, .ok record)
  | (cache, none) =>
    match l.fileEntry revision with
    | .error e => ({ l with cache := cache }, .error e)
    | .ok record =>
      if l.active.first ≤ revision then
        ({ l with cache := cache.put revision record }, .ok record)
      else ({ l with cache := cache }, .ok record)

/-- What `GetLogEntry` returns. -/
def read (l : FilesystemLog) (revision : Nat) : Except LogError LogRecord :=
  (l.getLogEntry revision).2

/-- `rotateLocked`: close the active file, unless it is empty, and start the next one. -/
def rotate (l : FilesystemLog) : FilesystemLog :=
  if l.active.count = 0 then l
  else { l with closed := l.closed ++ [l.active], active := newActiveFile l.lastRevision }

/-- `commitBatch`: append the records to the active file and publish them. -/
def commitBatch (l : FilesystemLog) (lastLogPosition : Nat) (batch : List LogRecord) :
    Except CommitError FilesystemLog :=
  if batch.isEmpty then .error .noTransactions
  else if lastLogPosition ≠ l.lastRevision then
    .error (.notContiguous lastLogPosition l.lastRevision)
  else
    let records := numberFrom (l.lastRevision + 1) batch
    let lastRevision := l.lastRevision + batch.length
    let active := { l.active with
      records := l.active.records ++ records
      size := l.active.size + appendedSize records
      last := lastRevision }
    let published := { l with
      active := active
      lastRevision := lastRevision
      cache := records.foldl (fun c r => c.put r.1 r.2) l.cache }
    if l.opts.rotateBytes ≤ active.size then .ok published.rotate else .ok published

/-- `Read` from the start: the published records in file order. -/
def readAll (l : FilesystemLog) : List (Nat × LogRecord) :=
  (l.files.filter fun f => f.count ≠ 0).flatMap LogFile.records

/-! ## Compaction -/

/-- The live function of `Compact`. -/
abbrev LiveFunc := Bytes → Nat → Bool

/-- A record is live if `live` says so for a key it touches. -/
def isLive (live : LiveFunc) (r : Nat × LogRecord) : Bool :=
  r.2.events.any fun ev => live ev.kv.key r.1

/-- `measured`. -/
structure Measured where
  file : LogFile
  liveBytes : Nat
  dead : Nat

/-- What `Compact` adds to `liveBytes` for the live records. -/
def liveBytes (kept : List (Nat × LogRecord)) : Nat :=
  (kept.map fun r => (encodeRecord r.1 r.2).length + 4).sum

/-- `group`, `groupBytes` and `groupDead`. -/
structure Group where
  files : List LogFile
  bytes : Nat
  dead : Nat

/-- No file yet. -/
def Group.empty : Group := ⟨[], 0, 0⟩

/-- One more file. -/
def Group.add (g : Group) (m : Measured) : Group where
  files := g.files ++ [m.file]
  bytes := g.bytes + m.liveBytes
  dead := g.dead + m.dead

/-- The test in `flush`: a lone file stays as it is while fewer than a tenth of its records are
dead. -/
def Group.rewritten (g : Group) : Bool :=
  match g.files with
  | [] => false
  | [f] => !(g.dead = 0 || g.dead * 10 < f.count)
  | _ => true

/-- The grouping loop of `Compact`, with the groups in the order in which they are flushed. -/
def groups (rotateBytes : Int) : Group → List Measured → List Group
  | g, [] => [g]
  | g, m :: ms =>
    if 0 < g.bytes ∧ rotateBytes < g.bytes + m.liveBytes then
      g :: groups rotateBytes (Group.empty.add m) ms
    else groups rotateBytes (g.add m) ms

/-- The file that `compactGroup` writes. -/
def compactedFile (group : List LogFile) (kept : List (Nat × LogRecord)) : LogFile where
  first := (group.head?.map LogFile.first).getD 0
  last := (group.getLast?.map LogFile.last).getD 0
  sparse := true
  records := kept
  size := header.length + appendedSize kept

/-- The swap at the end of `compactGroup`: the files of the group make room for `compacted`.  A file
is found by its first revision. -/
def replaceGroup (closed group : List LogFile) (compacted : LogFile) : List LogFile :=
  let i := closed.findIdx fun f => some f.first == group.head?.map LogFile.first
  closed.take i ++ compacted :: closed.drop (i + group.length)

/-- `compactGroup`, with the live records already chosen. -/
def compactGroup (l : FilesystemLog) (group : List LogFile) (kept : List (Nat × LogRecord)) :
    FilesystemLog :=
  { l with closed := replaceGroup l.closed group (compactedFile group kept) }

/-- The files `Compact` looks at. -/
def eligible (l : FilesystemLog) (through : Nat) : List LogFile :=
  l.closed.filter fun f => f.last ≤ through

/-- `liveRecords` with a counting callback. -/
def measure (live : LiveFunc) (f : LogFile) : Measured where
  file := f
  liveBytes := liveBytes (f.records.filter (isLive live))
  dead := (f.records.filter fun r => !isLive live r).length

/-- `flush`, for one group. -/
def flush (live : LiveFunc) (l : FilesystemLog) (g : Group) : FilesystemLog :=
  if g.rewritten then
    l.compactGroup g.files ((g.files.flatMap LogFile.records).filter (isLive live))
  else l

/-- The groups that `Compact` flushes. -/
def compactionGroups (l : FilesystemLog) (through : Nat) (live : LiveFunc) : List Group :=
  groups l.opts.rotateBytes Group.empty ((l.eligible through).map (measure live))

/-- `Compact` with a `live` function that answers the same throughout. -/
def compact (l : FilesystemLog) (through : Nat) (live : LiveFunc) : FilesystemLog :=
  (l.compactionGroups through live).foldl (flush live) l

/-! ## Compaction beside everything else -/

/-- `liveRecords` between two calls of `live`: the records still to look at, how many events of the
first of them were found not to be live, the records kept and the number of dead ones. -/
structure Scan where
  todo : List (Nat × LogRecord)
  asked : Nat
  kept : List (Nat × LogRecord)
  dead : Nat

/-- The start of `liveRecords`. -/
def Scan.start (records : List (Nat × LogRecord)) : Scan := ⟨records, 0, [], 0⟩

/-- The next call of `live`, or the end of a record none of whose events is live. -/
def Scan.step (live : LiveFunc) (s : Scan) : Scan :=
  match s.todo with
  | [] => s
  | r :: rest =>
    match r.2.events[s.asked]? with
    | some ev =>
      if live ev.kv.key r.1 then
        { todo := rest, asked := 0, kept := s.kept ++ [r], dead := s.dead }
      else { s with asked := s.asked + 1 }
    | none => { todo := rest, asked := 0, kept := s.kept, dead := s.dead + 1 }

/-- A compaction in progress: measuring the eligible files one after another, then rewriting the
groups one after another. -/
inductive Compaction where
  | measuring (scan : Scan) (file : LogFile) (todo : List LogFile) (measured : List Measured)
  | rewriting (scan : Scan) (group : List LogFile) (todo : List Group)

namespace Compaction

/-- The start of `Compact`; with no eligible file there is nothing to do. -/
def start (l : FilesystemLog) (through : Nat) : Option Compaction :=
  match l.eligible through with
  | [] => none
  | f :: fs => some (.measuring (Scan.start f.records) f fs [])

/-- The start of the next `compactGroup`. -/
def nextGroup : List Group → Option Compaction
  | [] => none
  | g :: gs =>
    if g.rewritten then
      some (.rewriting (Scan.start (g.files.flatMap LogFile.records)) g.files gs)
    else nextGroup gs

/-- One step; `none` when `Compact` returns. -/
def step (l : FilesystemLog) (live : LiveFunc) : Compaction → FilesystemLog × Option Compaction
  | .measuring scan file todo measured =>
    match scan.todo with
    | _ :: _ => (l, some (.measuring (scan.step live) file todo measured))
    | [] =>
      let measured := measured ++ [⟨file, liveBytes scan.kept, scan.dead⟩]
      match todo with
      | next :: todo => (l, some (.measuring (Scan.start next.records) next todo measured))
      | [] => (l, nextGroup (groups l.opts.rotateBytes Group.empty measured))
  | .rewriting scan group todo =>
    match scan.todo with
    | _ :: _ => (l, some (.rewriting (scan.step live) group todo))
    | [] => (l.compactGroup group scan.kept, nextGroup todo)

end Compaction

/-! ## Opening a directory -/

/-- A file as `open` finds it: what its name says, the records `logcodec.Scan` finds, and whether a
torn record follows them.  The name of a dense file does not give `last`. -/
structure DirEntry where
  first : Nat
  last : Nat
  sparse : Bool
  records : List (Nat × LogRecord)
  torn : Bool

/-- The errors with which `open` refuses a directory. -/
inductive OpenError where
  /-- "log file is truncated but is not the active file" -/
  | truncated (first : Nat)
  /-- "record has revision outside or out of order", or not the one its place gives -/
  | badRevision (first : Nat)
  /-- "log has a gap", or "log starts at revision ..., not 1" -/
  | gap (want first : Nat)
  deriving DecidableEq, Repr

/-- The order of `listFiles`: by first revision, a compacted file before the dense one it replaced. -/
def DirEntry.le (a b : DirEntry) : Prop :=
  a.first < b.first ∨ a.first = b.first ∧ (a.sparse = true ∨ b.sparse = false)

instance : DecidableRel DirEntry.le := fun a b =>
  inferInstanceAs (Decidable (a.first < b.first ∨ _))

/-- The loop of `listFiles` that drops the files a compacted file supersedes; `prev` is the file
kept last. -/
def dropSuperseded : Option DirEntry → List DirEntry → List DirEntry
  | _, [] => []
  | none, f :: fs => f :: dropSuperseded (some f) fs
  | some k, f :: fs =>
    if k.sparse ∧ k.first ≤ f.first ∧ f.first ≤ k.last then dropSuperseded (some k) fs
    else f :: dropSuperseded (some f) fs

/-- `listFiles`. -/
def listFiles (dir : List DirEntry) : List DirEntry :=
  dropSuperseded none (dir.insertionSort DirEntry.le)

/-- The body of the loop in `open`, for one file. -/
def openFile (isLast : Bool) (e : DirEntry) : Except OpenError LogFile :=
  if e.torn ∧ (isLast = false ∨ e.sparse) then .error (.truncated e.first)
  else
    let size := header.length + appendedSize e.records
    if e.sparse then
      if (∀ r ∈ e.records, e.first ≤ r.1 ∧ r.1 ≤ e.last) ∧
          e.records.Pairwise (fun r r' => r.1 < r'.1) then
        .ok ⟨e.first, e.last, true, e.records, size⟩
      else .error (.badRevision e.first)
    else if e.records.map Prod.fst = List.range' e.first e.records.length then
      .ok ⟨e.first, e.first + e.records.length - 1, false, e.records, size⟩
    else .error (.badRevision e.first)

/-- The loop in `open`: every file must start where the one before it ends. -/
def openFiles : Nat → List DirEntry → Except OpenError (List LogFile)
  | _, [] => .ok []
  | want, e :: rest => do
      let f ← openFile rest.isEmpty e
      if f.first ≠ want then .error (.gap want f.first)
      else
        let fs ← openFiles (f.last + 1) rest
        return f :: fs

/-- `NewFilesystemLogWithOptions` on a directory: the last file is appended to again unless
compaction wrote it. -/
def openDir (opts : Options) (dir : List DirEntry) : Except OpenError FilesystemLog := do
  let opts := opts.withDefaults
  let files ← openFiles 1 (listFiles dir)
  let cache := RecordCache.new opts.cacheBytes
  match files.getLast? with
  | none => return ⟨opts, [], newActiveFile 0, 0, cache⟩
  | some last =>
    if last.sparse then return ⟨opts, files, newActiveFile last.last, last.last, cache⟩
    else return ⟨opts, files.dropLast, last, last.last, cache⟩

/-- A file as a clean `Close` leaves it. -/
def dirEntry (f : LogFile) : DirEntry :=
  ⟨f.first, if f.sparse then f.last else 0, f.sparse, f.records, false⟩

/-- The directory that `Close` leaves. -/
def close (l : FilesystemLog) : List DirEntry := l.files.map dirEntry

end FilesystemLog

end CloudEtcd
