/-
# CloudEtcd.LogSystem.Model — the log, its directory and its archive, with restarts and crashes.

One process at a time has the directory open.  While it runs, commits and rotations (`writeMu`), one
compaction (`compactMu`) and the archiver take turns; a compaction is cut where the source lets
others run: between the passes over its files, before and after the rename of a new file, after the
swap of the index, and around each removal and each operation it queues.  The archive changes only
when the archiver carries out an operation, one at a time and in the order of the queue.

A crash leaves the directory.  A batch may have been cut short at any byte, and the next active file
may have been created with any part of its header (`Cut`).  A process may also die while it opens the
directory (`StartCut`).  The archive's part is the interface's: `Upload` stores a file under a new name,
accepts an identical one and reports a conflict for a different one, on which the process panics.
-/
import CloudEtcd.Lib.Transition
import CloudEtcd.Persistence.DiskLog

namespace CloudEtcd

open LogCodec DiskLog

/-! ## The process -/

/-- `Compact` in progress. -/
inductive CompactJob where
  /-- Measuring the eligible files. -/
  | measuring (todo : List IndexFile) (measured : List DiskLog.Measured)
  /-- Before the next group. -/
  | grouped (todo : List DiskLog.Group)
  /-- The new file of the group has been renamed into place. -/
  | renamed (group : List IndexFile) (file : IndexFile) (todo : List DiskLog.Group)
  /-- The index has been swapped; the replaced files are to be removed, and then the operations
  queued. -/
  | replacing (names : List FileName) (ops : List ArchiverOp) (todo : List DiskLog.Group)

/-- A process that has the log open: the log, the operation that the archiver is carrying out, the
compaction in progress, and whether `Close` has been called. -/
structure Process where
  log : DiskLog
  current : Option ArchiverOp := none
  job : Option CompactJob := none
  closing : Bool := false

namespace Process

/-- The operations that the archiver has still to carry out. -/
def pending (p : Process) : List ArchiverOp := p.current.toList ++ p.log.queue

/-- `commitBatch` by the batching layer.  A Go slice has less than `2 ^ 63` bytes and a revision is an
`int64`, so a batch that is not storable does not exist. -/
def commit (p : Process) (position : Nat) (batch : List LogRecord) : Option Process :=
  if p.closing then none
  else if ∀ r ∈ numberFrom (p.log.lastRevision + 1) batch, Storable r then
    match p.log.commitBatch position batch with
    | .ok log => some { p with log := log }
    | .error _ => some p
  else none

/-- `tick`, when the active file is old enough. -/
def tick (p : Process) : Option Process :=
  if p.closing then none else some { p with log := p.log.rotate }

/-- The part of `GetLogEntry` that changes the index: a closed file is indexed on first read. -/
def load (p : Process) (revision : Nat) : Process :=
  match p.log.findFile revision with
  | none => p
  | some f =>
    { p with log := { p.log with
      closed := p.log.closed.map fun c =>
        if c.first = f.first then ((DiskLog.load p.log.dir c).toOption.map Prod.fst).getD c
        else c } }

/-- The start of `Compact`. -/
def compact (p : Process) (through : Nat) : Option Process :=
  match p.job with
  | some _ => none
  | none =>
    if p.closing then none
    else some { p with job := some (.measuring (p.log.eligible through) []) }

/-- The next step of the compaction; `live` answers the calls of that step. -/
def compactStep (p : Process) (live : FilesystemLog.LiveFunc) : Option Process :=
  match p.job with
  | none => none
  | some (.measuring [] measured) =>
    some { p with job := some (.grouped
      (groups p.log.opts.rotateBytes DiskLog.Group.empty measured)) }
  | some (.measuring (f :: todo) measured) =>
    match measure p.log.dir live f with
    | .error _ => some { p with job := none }
    | .ok m => some { p with job := some (.measuring todo (measured ++ [m])) }
  | some (.grouped []) => some { p with job := none }
  | some (.grouped (g :: todo)) =>
    if g.rewritten then
      match p.log.rewrite live g.files with
      | .error _ => some { p with job := none }
      | .ok (log, file) => some { p with log := log, job := some (.renamed g.files file todo) }
    else some { p with job := some (.grouped todo) }
  | some (.renamed group file todo) =>
    some { p with
      log := p.log.swap group file
      job := some (.replacing (replaced group file) (archiveOps group file)
        todo) }
  | some (.replacing (n :: names) ops todo) =>
    some { p with
      log := { p.log with dir := p.log.dir.erase n }
      job := some (.replacing names ops todo) }
  | some (.replacing [] (op :: ops) todo) =>
    some { p with log := p.log.enqueue [op], job := some (.replacing [] ops todo) }
  | some (.replacing [] [] todo) => some { p with job := some (.grouped todo) }

/-- The archiver takes the next operation from the queue. -/
def take (p : Process) : Option Process :=
  match p.current, p.log.queue with
  | none, op :: queue => some { p with log := { p.log with queue := queue }, current := some op }
  | _, _ => none

/-- `archived` is set on the files of that name. -/
def markArchived (p : Process) (name : FileName) : Process :=
  let mark := fun f : IndexFile => if f.name = name then { f with archived := true } else f
  { p with log := { p.log with closed := p.log.closed.map mark, active := mark p.log.active } }

/-- `Close`, once no compaction runs; the archiver goes on until the process ends. -/
def close (p : Process) : Option Process :=
  if p.closing then none
  else
    match p.job with
    | some _ => none
    | none => some { p with log := p.log.close, closing := true }

end Process

/-! ## Crashes -/

/-- What a crash cut short: a batch of which `written` bytes are in the active file, or the creation of
the next active file after such a batch, with some bytes of its header. -/
structure Cut where
  batch : List LogRecord := []
  written : Nat := 0
  fresh : Option Nat := none

/-- The directory that a crash leaves. -/
def Process.cutDir (p : Process) (cut : Cut) : Option Dir :=
  let records := numberFrom (p.log.lastRevision + 1) cut.batch
  if ∀ r ∈ records, Storable r then
    let buf := records.flatMap write
    let dir := appendTo p.log.dir p.log.active.name (buf.take cut.written)
    match cut.fresh with
    | none => some dir
    | some n =>
      if buf.length ≤ cut.written ∧ p.log.active.count + cut.batch.length ≠ 0 then
        some (dir.insert (freshFile (p.log.lastRevision + cut.batch.length)).name
          (header.take n))
      else none
  else none

/-- How far a process came that died while it opened the directory: it had removed some of the
superseded files, or was creating the first active file. -/
inductive StartCut where
  | listing (removed : Nat)
  | creating (bytes : Nat)

/-! ## The system -/

/-- A process runs, or there is only the directory. -/
inductive Status where
  | down (dir : Dir)
  | up (p : Process)

/-- The local machine and the archive. -/
structure LogSystem where
  archiving : Bool
  archive : Dir
  status : Status

namespace LogSystem

/-- What can happen next. -/
inductive Action where
  | start (opts : Options)
  | failStart (cut : StartCut)
  | commit (position : Nat) (batch : List LogRecord)
  | tick
  | load (revision : Nat)
  | compact (through : Nat)
  | compactStep (live : FilesystemLog.LiveFunc)
  | take
  | carryOut
  | close
  | exit
  | crash (cut : Cut)

/-- The system after the process has moved on its own. -/
def moved (s : LogSystem) (p : Option Process) : Option LogSystem :=
  p.map fun p => { s with status := .up p }

/-- `Upload` creates the object.  An identical one counts as stored; on a different one the process
panics. -/
def createObject (s : LogSystem) (p : Process) (name : FileName) (data : Bytes) : LogSystem :=
  match s.archive.lookup name with
  | none => { s with
      archive := s.archive.insert name data
      status := .up { p.markArchived name with current := none } }
  | some held =>
    if held = data then { s with status := .up { p.markArchived name with current := none } }
    else { s with status := .down p.log.dir }

/-- `archive`: the operation succeeds, is retried, or finds a conflict.  An upload that other steps come
between is in `UploadSystem`. -/
def carryOut (s : LogSystem) (p : Process) : Option LogSystem :=
  match p.current with
  | none => none
  | some op =>
    if op.remove then
      some { s with
        archive := s.archive.erase op.name
        status := .up { p with current := none } }
    else
      match p.log.dir.lookup op.name with
      | none => some s
      | some data => some (s.createObject p op.name data)

/-- One step. -/
def step (s : LogSystem) (a : Action) : Option LogSystem :=
  match s.status with
  | .down dir =>
    match a with
    | .start opts =>
      match openLog opts s.archiving s.archive dir with
      | (_, .ok log) => some { s with status := .up { log := log } }
      | (dir, .error _) => some { s with status := .down dir }
    | .failStart (.listing removed) =>
      let superseded := dir.names.filter (· ∉ keepFiles none dir.names)
      some { s with status := .down (Dir.removeAll dir (superseded.take removed)) }
    | .failStart (.creating bytes) =>
      match openLog ⟨0, 0⟩ s.archiving s.archive dir with
      | (_, .ok log) =>
        if log.active.name ∈ dir then none
        else some { s with
          status := .down (log.dir.insert log.active.name (header.take bytes)) }
      | (_, .error _) => none
    | _ => none
  | .up p =>
    match a with
    | .start _ => none
    | .failStart _ => none
    | .commit position batch => s.moved (p.commit position batch)
    | .tick => s.moved p.tick
    | .load revision => s.moved (some (p.load revision))
    | .compact through => s.moved (p.compact through)
    | .compactStep live => s.moved (p.compactStep live)
    | .take => s.moved p.take
    | .carryOut => s.carryOut p
    | .close => s.moved p.close
    | .exit => if p.closing then some { s with status := .down p.log.dir } else none
    | .crash cut => (p.cutDir cut).map fun dir => { s with status := .down dir }

/-- A machine that has never run the log, and an empty archive. -/
def init (archiving : Bool) : LogSystem := ⟨archiving, ∅, .down ∅⟩

/-- Take the actions in order. -/
def run (s : LogSystem) (as : List Action) : Option LogSystem := Transition.run step s as

end LogSystem

end CloudEtcd
