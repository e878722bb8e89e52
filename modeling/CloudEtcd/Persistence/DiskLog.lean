/-
# CloudEtcd.Persistence.DiskLog — the log with its directory, down to the bytes
(`pkg/persistence/filesystemlog`).

`FilesystemLog` models a file by the records it decodes to.  Here a file is its bytes, and beside the
directory stands what the log keeps in memory: for each file its range, the number of its records, its
size, and the span of each record once the file is indexed.  The functions compute offsets the way the
source does: `commitBatch` shifts the spans of a batch by the size of the active file, `compactGroup`
derives them from the bytes it has written, `loadLocked` and `open` take them from `Scan`.

`compactGroup` is cut into the pieces between which other goroutines can run: writing the new file and
renaming it into place (`rewrite`), the swap of the index (`swap`), the removal of the replaced files
and the queueing of the archive operations.  `compact` is the whole call.
-/
import CloudEtcd.Persistence.Directory

namespace CloudEtcd

open LogCodec

/-! ## The index -/

/-- `logFile`, without its handles: what the name says, the number of records, the size, whether the
archive holds it, and the spans and revisions of its records once it is indexed (`revisions` stays
empty for a dense file, whose record `i` has revision `first + i`). -/
structure IndexFile where
  first : Nat
  last : Nat
  sparse : Bool
  count : Nat
  size : Nat
  archived : Bool := false
  indexed : Bool := true
  spans : List Span := []
  revisions : List Nat := []
  deriving DecidableEq, Repr

namespace IndexFile

/-- The file's name. -/
def name (f : IndexFile) : FileName := if f.sparse then .sparse f.first f.last else .dense f.first

/-- `revisionAt`. -/
def revisionAt (f : IndexFile) (i : Nat) : Nat :=
  match f.revisions with
  | [] => f.first + i
  | _ :: _ => f.revisions.getD i 0

end IndexFile

/-- `archiveOp`. -/
structure ArchiverOp where
  name : FileName
  remove : Bool := false
  deriving DecidableEq, Repr

/-- The errors of reading a file of the log. -/
inductive ReadError where
  /-- "failed to open log file ..." -/
  | missing (name : FileName)
  /-- "failed to read log file ...": it is shorter than the index says -/
  | short (name : FileName)
  /-- "indexing log file ...: ..." -/
  | index (name : FileName) (e : ScanError)
  /-- "failed to decode log record ... from file ...: ..." -/
  | decode (revision : Nat) (e : Protowire.ParseError)
  /-- An event without a `kv`, which the source dereferences. -/
  | noKeyValue (revision : Nat)
  /-- "log entry for revision ... not found in any file" -/
  | notFound (revision : Nat)
  /-- "log entry for revision ... not found in file ..." -/
  | notInFile (revision : Nat) (name : FileName)
  /-- `ErrCompacted`: "revision ...: ..." -/
  | compacted (revision : Nat)
  deriving DecidableEq, Repr

/-- `position`: the index of a revision's record in an indexed file.  The binary search over the
revisions of a sparse file finds the first one that is not below the wanted revision. -/
def IndexFile.position (f : IndexFile) (revision : Nat) : Except ReadError Nat :=
  if f.sparse then
    let pos := f.revisions.findIdx fun r => revision ≤ r
    if f.revisions[pos]? = some revision then .ok pos else .error (.compacted revision)
  else if revision < f.first ∨ f.spans.length ≤ revision - f.first then
    .error (.notInFile revision f.name)
  else .ok (revision - f.first)

/-- `FilesystemLog` and its directory: `files` is `closed` and, last, `active`.  The queue of the
archiver is the part of the archive that belongs to the log. -/
structure DiskLog where
  opts : Options
  archiving : Bool
  dir : Dir
  closed : List IndexFile
  active : IndexFile
  lastRevision : Nat
  queue : List ArchiverOp

namespace DiskLog

/-- The files in order. -/
def files (l : DiskLog) : List IndexFile := l.closed ++ [l.active]

/-- `archiver.add`; without an archive nothing is queued. -/
def enqueue (l : DiskLog) (ops : List ArchiverOp) : DiskLog :=
  if l.archiving then { l with queue := l.queue ++ ops } else l

/-! ## Commit and rotation -/

/-- The index entry that `newActiveFile` appends. -/
def freshFile (lastRevision : Nat) : IndexFile where
  first := lastRevision + 1
  last := lastRevision
  sparse := false
  count := 0
  size := header.length

/-- `rotateLocked`: unless the active file is empty, create the next one and hand the old one to the
archiver. -/
def rotate (l : DiskLog) : DiskLog :=
  if l.active.count = 0 then l
  else
    { l with
      dir := l.dir.insert (freshFile l.lastRevision).name header
      closed := l.closed ++ [l.active]
      active := freshFile l.lastRevision }.enqueue [{ name := l.active.name }]

/-- The directory after `buf` was appended to a file. -/
def appendTo (d : Dir) (name : FileName) (buf : Bytes) : Dir :=
  d.insert name ((d.lookup name).getD [] ++ buf)

/-- `commitBatch`: append to the active file, publish, and rotate if it has grown large enough. -/
def commitBatch (l : DiskLog) (lastLogPosition : Nat) (batch : List LogRecord) :
    Except CommitError DiskLog :=
  if batch.isEmpty then .error .noTransactions
  else
    let (buf, spans) := appendRecordsAt [] (numberFrom (lastLogPosition + 1) batch)
    if lastLogPosition ≠ l.lastRevision then
      .error (.notContiguous lastLogPosition l.lastRevision)
    else
      let base := l.active.size
      let lastRevision := l.lastRevision + batch.length
      let active := { l.active with
        spans := l.active.spans ++ spans.map fun s => { s with offset := s.offset + base }
        count := l.active.count + batch.length
        size := l.active.size + buf.length
        last := lastRevision }
      let published := { l with
        dir := appendTo l.dir l.active.name buf
        active := active
        lastRevision := lastRevision }
      if l.opts.rotateBytes ≤ active.size then .ok published.rotate else .ok published

/-! ## Reading -/

/-- The bytes of a file that the index accounts for. -/
def fileData (d : Dir) (f : IndexFile) : Except ReadError Bytes :=
  match d.lookup f.name with
  | none => .error (.missing f.name)
  | some data => if data.length < f.size then .error (.short f.name) else .ok (data.take f.size)

/-- `loadLocked`: index the file on first use. -/
def load (d : Dir) (f : IndexFile) : Except ReadError (IndexFile × Bytes) :=
  match fileData d f with
  | .error e => .error e
  | .ok data =>
    if f.indexed then .ok (f, data)
    else
      match offsets data with
      | .error e => .error (.index f.name e)
      | .ok (spans, revisions) =>
        .ok ({ f with
          spans := spans
          revisions := if f.sparse then revisions else f.revisions
          indexed := true }, data)

/-- `findFile`, which searches from the end. -/
def findFile (l : DiskLog) (revision : Nat) : Option IndexFile :=
  match l.files.reverse.find? fun f => f.first ≤ revision with
  | some f => if revision ≤ f.last then some f else none
  | none => none

/-- `recordBytes`, undisturbed: the bytes of a revision's record.  A closed file is loaded first; the
active file is indexed as it is written. -/
def recordBytes (l : DiskLog) (revision : Nat) : Except ReadError Bytes :=
  match l.findFile revision with
  | none => .error (.notFound revision)
  | some f =>
    match if f = l.active then .ok f else (load l.dir f).map Prod.fst with
    | .error e => .error e
    | .ok f =>
      match f.position revision with
      | .error e => .error e
      | .ok pos =>
        let span := f.spans.getD pos ⟨0, 0⟩
        match l.dir.lookup f.name with
        | none => .error (.missing f.name)
        | some data =>
          if data.length < span.offset + span.length then .error (.short f.name)
          else .ok (span.bytes data)

/-- What `Read` does with one file: the messages of its records with their revisions. -/
def readFile (d : Dir) (fromRevision : Nat) (f : IndexFile) :
    Except ReadError (List (Nat × Bytes)) :=
  if f.count = 0 ∨ f.last < fromRevision then .ok []
  else
    match fileData d f with
    | .error e => .error e
    | .ok data =>
      match offsets data with
      | .error e => .error (.index f.name e)
      | .ok (spans, revisions) =>
        .ok ((revisions.zip (spans.map fun s => s.bytes data)).filter
          fun r => fromRevision ≤ r.1)

/-- The messages that `Read` decodes for its callback, file by file. -/
def readFrom (l : DiskLog) (fromRevision : Nat) : Except ReadError (List (Nat × Bytes)) :=
  (l.files.mapM (readFile l.dir fromRevision)).map List.flatten

/-! ## Compaction -/

/-- The question `liveRecords` asks about the events of a record. -/
def anyLive (live : FilesystemLog.LiveFunc) (revision : Nat) :
    List DecodedEvent → Except ReadError Bool
  | [] => .ok false
  | ev :: events =>
    match ev.kv with
    | none => .error (.noKeyValue revision)
    | some kv => if live kv.key revision then .ok true else anyLive live revision events

/-- The loop of `liveRecords`: the messages to keep and the number of dead records. -/
def keepLive (live : FilesystemLog.LiveFunc) :
    List (Nat × Bytes) → Except ReadError (List (Nat × Bytes) × Nat)
  | [] => .ok ([], 0)
  | (revision, m) :: rest =>
    match decodeAlias m with
    | .error e => .error (.decode revision e)
    | .ok events =>
      match anyLive live revision events with
      | .error e => .error e
      | .ok isLive =>
        match keepLive live rest with
        | .error e => .error e
        | .ok (kept, dead) =>
          if isLive then .ok ((revision, m) :: kept, dead) else .ok (kept, dead + 1)

/-- The records of an indexed file. -/
def encodedRecords (f : IndexFile) (data : Bytes) : List (Nat × Bytes) :=
  f.spans.mapIdx fun i s => (f.revisionAt i, s.bytes data)

/-- `liveRecords`. -/
def liveRecords (d : Dir) (live : FilesystemLog.LiveFunc) (f : IndexFile) :
    Except ReadError (List (Nat × Bytes) × Nat) :=
  match load d f with
  | .error e => .error e
  | .ok (f, data) => keepLive live (encodedRecords f data)

/-- `measured`. -/
structure Measured where
  file : IndexFile
  liveBytes : Nat
  dead : Nat

/-- `liveRecords` with a counting callback. -/
def measure (d : Dir) (live : FilesystemLog.LiveFunc) (f : IndexFile) : Except ReadError Measured :=
  match liveRecords d live f with
  | .error e => .error e
  | .ok (kept, dead) => .ok ⟨f, (kept.map fun r => r.2.length + 4).sum, dead⟩

/-- `group`, `groupBytes` and `groupDead`. -/
structure Group where
  files : List IndexFile
  bytes : Nat
  dead : Nat

/-- No file yet. -/
def Group.empty : Group := ⟨[], 0, 0⟩

/-- One more file. -/
def Group.add (g : Group) (m : Measured) : Group where
  files := g.files ++ [m.file]
  bytes := g.bytes + m.liveBytes
  dead := g.dead + m.dead

/-- The test in `flush`: a lone file stays as it is while fewer than a tenth of its records are
dead. -/
def Group.rewritten (g : Group) : Bool :=
  match g.files with
  | [] => false
  | [f] => !(g.dead = 0 || g.dead * 10 < f.count)
  | _ => true

/-- The grouping loop of `Compact`. -/
def groups (rotateBytes : Int) : Group → List Measured → List Group
  | g, [] => [g]
  | g, m :: ms =>
    if 0 < g.bytes ∧ rotateBytes < g.bytes + m.liveBytes then
      g :: groups rotateBytes (Group.empty.add m) ms
    else groups rotateBytes (g.add m) ms

/-- `WriteRecord` for each message in turn: the bytes written and the spans, when `size` bytes stand
before them. -/
def writeAll : Nat → List (Nat × Bytes) → Bytes × List Span
  | _, [] => ([], [])
  | size, (_, m) :: rest =>
    let written := appendVarint m.length ++ m
    let n := written.length
    let span : Span := ⟨size + n - m.length, m.length⟩
    let (buf, spans) := writeAll (size + n) rest
    (written ++ buf, span :: spans)

/-- The index entry and the content of the file that `compactGroup` writes. -/
def compactedFile (group : List IndexFile) (kept : List (Nat × Bytes)) : IndexFile × Bytes :=
  let (buf, spans) := writeAll header.length kept
  ({ first := (group.head?.map IndexFile.first).getD 0
     last := (group.getLast?.map IndexFile.last).getD 0
     sparse := true
     count := spans.length
     size := header.length + buf.length
     spans := spans
     revisions := kept.map Prod.fst }, header ++ buf)

/-- The live records of the files of a group, one file after another. -/
def groupRecords (d : Dir) (live : FilesystemLog.LiveFunc) :
    List IndexFile → Except ReadError (List (Nat × Bytes))
  | [] => .ok []
  | f :: fs =>
    match liveRecords d live f with
    | .error e => .error e
    | .ok (kept, _) =>
      match groupRecords d live fs with
      | .error e => .error e
      | .ok rest => .ok (kept ++ rest)

/-- The first part of `compactGroup`: write the live records to a temporary file and rename it into
place. -/
def rewrite (l : DiskLog) (live : FilesystemLog.LiveFunc) (group : List IndexFile) :
    Except ReadError (DiskLog × IndexFile) :=
  match groupRecords l.dir live group with
  | .error e => .error e
  | .ok kept =>
    let (file, data) := compactedFile group kept
    .ok ({ l with dir := l.dir.insert file.name data }, file)

/-- The swap of the index; a file is found by its first revision. -/
def swap (l : DiskLog) (group : List IndexFile) (file : IndexFile) : DiskLog :=
  let i := l.closed.findIdx fun f => some f.first == group.head?.map IndexFile.first
  { l with closed := l.closed.take i ++ file :: l.closed.drop (i + group.length) }

/-- The names of the files that a group's new file replaces. -/
def replaced (group : List IndexFile) (file : IndexFile) : List FileName :=
  (group.map IndexFile.name).filter (· ≠ file.name)

/-- The archive operations that `compactGroup` queues. -/
def archiveOps (group : List IndexFile) (file : IndexFile) : List ArchiverOp :=
  { name := file.name } :: (replaced group file).map fun n => { name := n, remove := true }

/-- `flush`, for one group, with every `os.Remove` successful. -/
def flush (live : FilesystemLog.LiveFunc) (l : DiskLog) (g : Group) : Except ReadError DiskLog :=
  if g.rewritten then
    match l.rewrite live g.files with
    | .error e => .error e
    | .ok (l, file) =>
      let l := l.swap g.files file
      .ok ({ l with dir := l.dir.removeAll (replaced g.files file) }.enqueue
        (archiveOps g.files file))
  else .ok l

/-- The files `Compact` looks at. -/
def eligible (l : DiskLog) (through : Nat) : List IndexFile :=
  l.closed.filter fun f => f.last ≤ through

/-- `Compact` with a `live` function that answers the same throughout. -/
def compact (l : DiskLog) (through : Nat) (live : FilesystemLog.LiveFunc) :
    Except ReadError DiskLog :=
  match (l.eligible through).mapM (measure l.dir live) with
  | .error e => .error e
  | .ok measured => (groups l.opts.rotateBytes Group.empty measured).foldlM (flush live) l

/-! ## Opening a directory -/

/-- The errors with which `open` refuses a directory. -/
inductive OpenFailure where
  /-- "log file ...: ..." -/
  | scan (name : FileName) (e : ScanError)
  /-- "log file ... is truncated at byte ... but is not the active file; recovery needed" -/
  | truncated (name : FileName) (complete : Nat)
  /-- "log file ...: record ... has revision ..., outside or out of order", or not the one its place
  gives -/
  | badRevision (name : FileName)
  /-- "log has a gap", or "log starts at revision ..., not 1" -/
  | gap (want : Nat) (name : FileName)
  /-- "archive holds ..., which this log does not have" -/
  | notLocal (name : FileName)
  /-- "creating log file ...: file exists" -/
  | present (name : FileName)
  deriving DecidableEq, Repr

/-- The index entry of a file that was scanned, if its revisions are those its name announces. -/
def indexEntry (isLast archived : Bool) (name : FileName) (s : Scanned) :
    Except OpenFailure IndexFile :=
  match name with
  | .sparse first last =>
    if (∀ r ∈ s.revisions, first ≤ r ∧ r ≤ last) ∧ s.revisions.Pairwise (· < ·) then
      .ok {
        first := first
        last := last
        sparse := true
        count := s.spans.length
        size := s.complete
        archived := archived
        indexed := false }
    else .error (.badRevision name)
  | .dense first =>
    if s.revisions = List.range' first s.revisions.length then
      .ok {
        first := first
        last := first + s.spans.length - 1
        sparse := false
        count := s.spans.length
        size := s.complete
        archived := archived
        indexed := isLast
        spans := if isLast then s.spans else [] }
    else .error (.badRevision name)

/-- The body of the loop in `open`; a torn tail of the last file is cut off. -/
def openFile (isLast archived : Bool) (name : FileName) (d : Dir) :
    Dir × Except OpenFailure IndexFile :=
  let data := (d.lookup name).getD []
  match scan data with
  | .error e => (d, .error (.scan name e))
  | .ok s =>
    if s.complete < data.length then
      if isLast = false ∨ name.isSparse then (d, .error (.truncated name s.complete))
      else (d.insert name (data.take s.complete), indexEntry isLast archived name s)
    else (d, indexEntry isLast archived name s)

/-- The loop in `open`: every file must start where the one before it ends. -/
def openFiles (d : Dir) : Nat → List (FileName × Bool) → Dir × Except OpenFailure (List IndexFile)
  | _, [] => (d, .ok [])
  | want, (name, archived) :: rest =>
    match openFile rest.isEmpty archived name d with
    | (d, .error e) => (d, .error e)
    | (d, .ok f) =>
      if f.first ≠ want then (d, .error (.gap want name))
      else
        match openFiles d (f.last + 1) rest with
        | (d, .error e) => (d, .error e)
        | (d, .ok fs) => (d, .ok (f :: fs))

/-- The second loop of `reconcileArchive`: an archived file that the directory lacks must be
superseded, and is then to be removed. -/
def reconcileNames (files : List FileName) : List FileName → Except OpenFailure (List ArchiverOp)
  | [] => .ok []
  | name :: names =>
    if name ∈ files then reconcileNames files names
    else if files.any (·.supersedes name.first) then
      match reconcileNames files names with
      | .error e => .error e
      | .ok ops => .ok ({ name := name, remove := true } :: ops)
    else .error (.notLocal name)

/-- `reconcileArchive`: an empty directory is restored from the archive.  The result is the files
with their `archived` flags, and the removals that are queued. -/
def reconcileArchive (archive d : Dir) (files : List FileName) :
    Dir × Except OpenFailure (List (FileName × Bool) × List ArchiverOp) :=
  let (d, files) :=
    if files = [] ∧ archive.names ≠ [] then
      listDir (archive.names.foldl (fun d n => d.insert n ((archive.lookup n).getD [])) d)
    else (d, files)
  match reconcileNames files archive.names with
  | .error e => (d, .error e)
  | .ok removals => (d, .ok (files.map fun n => (n, decide (n ∈ archive)), removals))

/-- The end of `open`: the last file is appended to again unless it is archived or compaction wrote
it; closed files that the archive lacks are queued. -/
def finishOpen (opts : Options) (archiving : Bool) (d : Dir) (removals : List ArchiverOp)
    (files : List IndexFile) : DiskLog :=
  match files.getLast? with
  | none => {
      opts := opts
      archiving := archiving
      dir := d.insert (freshFile 0).name header
      closed := []
      active := freshFile 0
      lastRevision := 0
      queue := removals }
  | some last =>
    let missing := fun fs : List IndexFile =>
      if archiving then
        (fs.filter fun f => !f.archived).map fun f => ({ name := f.name } : ArchiverOp)
      else []
    if last.archived ∨ last.sparse then {
      opts := opts
      archiving := archiving
      dir := d.insert (freshFile last.last).name header
      closed := files
      active := freshFile last.last
      lastRevision := last.last
      queue := removals ++ missing files }
    else {
      opts := opts
      archiving := archiving
      dir := d
      closed := files.dropLast
      active := last
      lastRevision := last.last
      queue := removals ++ missing files.dropLast }

/-- The file that `open` creates in the end, unless it appends to the last one. -/
def createdName (files : List IndexFile) : Option FileName :=
  match files.getLast? with
  | none => some (freshFile 0).name
  | some last => if last.archived ∨ last.sparse then some (freshFile last.last).name else none

variable {files : List IndexFile}

theorem createdName_none {last : IndexFile} (harchived : last.archived = false)
    (hsparse : last.sparse = false) : createdName (files ++ [last]) = none := by
  simp [createdName, harchived, hsparse]

theorem createdName_some {last : IndexFile} (h : last.archived = true ∨ last.sparse = true) :
    createdName (files ++ [last]) = some (freshFile last.last).name := by
  simp [createdName, h]

/-- `NewFilesystemLogWithOptions` on a directory, with the directory it leaves. -/
def openLog (opts : Options) (archiving : Bool) (archive d : Dir) :
    Dir × Except OpenFailure DiskLog :=
  let (d, names) := listDir d
  let (d, reconciled) :=
    if archiving then reconcileArchive archive d names
    else (d, .ok (names.map fun n => (n, false), []))
  match reconciled with
  | .error e => (d, .error e)
  | .ok (files, removals) =>
    match openFiles d 1 files with
    | (d, .error e) => (d, .error e)
    | (d, .ok files) =>
      -- `newActiveFile` opens with O_EXCL
      match (createdName files).filter fun n => decide (n ∈ d) with
      | some name => (d, .error (.present name))
      | none =>
        let l := finishOpen opts.withDefaults archiving d removals files
        (l.dir, .ok l)

/-- `Close`: with an archive the active file is rotated, so that everything committed is archived. -/
def close (l : DiskLog) : DiskLog := if l.archiving then l.rotate else l

end DiskLog

end CloudEtcd
