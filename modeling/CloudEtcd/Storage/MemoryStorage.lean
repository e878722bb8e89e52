/-
# CloudEtcd.Storage.MemoryStorage — evaluating transactions at a snapshot (`memorystorage`).

`MemoryStorage` is the state that `mu` guards: the index, the lease table, the applied and the
compacted revision.  `evaluate` runs a transaction's compares and operations at a snapshot and
stages its events and its footprint (`TxnMeta`); it reads records through the function `log`, what
`GetLogEntry` answers while the read lock is held.  `applyUpTo`, `compact` and `replayLog` are the
writers of the state.
-/
import CloudEtcd.BPTree
import CloudEtcd.Lease
import CloudEtcd.Storage.Api

namespace CloudEtcd

/-- What `GetLogEntry` answers. -/
abbrev LogReader := Nat → Except LogError LogRecord

/-- `MemoryStorage`, without its log and its watchers. -/
structure MemoryStorage where
  leaseManager : LeaseManager
  revisions : BPTree
  compacted : Nat
  applied : Nat

/-- The staging area of a transaction (`txn`). -/
structure Txn where
  snapshotTimestamp : Nat
  logEvents : List Event
  txnMeta : TxnMeta

namespace Txn

/-- Stage an event and mark its key as written. -/
def stage (t : Txn) (event : Event) : Txn :=
  { t with
    logEvents := t.logEvents ++ [event]
    txnMeta := t.txnMeta.addWrite event.kv.key }

/-- Record the revision at which a key was read. -/
def addRead (t : Txn) (key : Bytes) (revision : Nat) : Txn :=
  { t with txnMeta := t.txnMeta.addRead key revision }

/-- Note a range read. -/
def addList (t : Txn) : Txn := { t with txnMeta := t.txnMeta.addList }

end Txn

namespace MemoryStorage

/-! ## Operations of a transaction -/

/-- The event behind a revision of the index, as the compares, `put` and `delete` fetch it.  A
missing record, or a record without the key, ends the process. -/
def fetchEvent (log : LogReader) (key : Bytes) (revision : Nat) : Except TxnError Event :=
  match log revision with
  | .error _ => .error .fatal
  | .ok logEntry =>
    match findEvent logEntry key with
    | none => .error .fatal
    | some event => .ok event

/-- The latest event on a key at the snapshot. -/
def prevEvent (m : MemoryStorage) (log : LogReader) (key : Bytes) (snapshot : Nat) :
    Except TxnError (Option Event) :=
  match m.revisions.getLatestRevisionByKey key snapshot with
  | none => .ok none
  | some existingRevision => (fetchEvent log key existingRevision).map some

/-- The `KeyValue` that an event leaves behind. -/
def liveKv (event : Option Event) : Option KeyValue :=
  event.bind fun e => match e.type with
    | .put => some e.kv
    | .delete => none

/-- The equality test of one compare against the `KeyValue` of its key. -/
def compareKv (cond : Compare) (kv : Option KeyValue) : Except TxnError Bool :=
  match cond.target with
  | .mod =>
    match cond.targetUnion with
    | .modRevision target =>
      match cond.result with
      | .equal => .ok (kv.elim 0 KeyValue.modRevision == target)
      | result => .error (.unsupportedCompareResult result)
    | _ => .error .unsupportedTarget
  | .version =>
    match cond.targetUnion with
    | .version target =>
      match cond.result with
      | .equal => .ok (kv.elim 0 KeyValue.version == target)
      | result => .error (.unsupportedCompareResult result)
    | _ => .error .unsupportedTarget
  | .lease =>
    match cond.targetUnion with
    | .lease target =>
      match cond.result with
      | .equal => .ok (kv.elim 0 KeyValue.lease == target)
      | result => .error (.unsupportedCompareResult result)
    | _ => .error .unsupportedTarget
  | target => .error (.unsupportedCompareTarget target)

/-- The truth value of one compare at the snapshot. -/
def evaluateCompare (m : MemoryStorage) (log : LogReader) (snapshot : Nat) (cond : Compare) :
    Except TxnError Bool := do
  let event ← m.prevEvent log cond.key snapshot
  compareKv cond (liveKv event)

/-- The revision that a transaction records for a key it reads. -/
def readRevision (m : MemoryStorage) (key : Bytes) (snapshot : Nat) : Nat :=
  (m.revisions.getLatestRevisionByKey key snapshot).getD 0

/-- The loop over `req.Compare`: the footprint so far and `conditionsFailed`. -/
def evaluateCompares (m : MemoryStorage) (log : LogReader) (snapshot : Nat) :
    TxnMeta → Bool → List Compare → Except TxnError (TxnMeta × Bool)
  | txnMeta, conditionsFailed, [] => .ok (txnMeta, conditionsFailed)
  | txnMeta, conditionsFailed, cond :: conds => do
      let holds ← m.evaluateCompare log snapshot cond
      m.evaluateCompares log snapshot
        (txnMeta.addRead cond.key (m.readRevision cond.key snapshot))
        (conditionsFailed || !holds) conds

/-- The event that `txn.put` stages. -/
def putEvent (req : PutRequest) (newRevision : Nat) (prevKv : Option KeyValue) : Event where
  type := .put
  kv :=
    { key := req.key
      value := req.value
      modRevision := newRevision
      lease := req.lease
      createRevision := prevKv.elim newRevision KeyValue.createRevision
      version := prevKv.elim 1 fun kv => kv.version + 1 }
  prevKv := prevKv

/-- `txn.put`. -/
def put (m : MemoryStorage) (log : LogReader) (t : Txn) (req : PutRequest) :
    Except TxnError (Txn × PutResponse) :=
  if req.lease ≠ 0 ∧ m.leaseManager.hasLease req.lease = false then .error .leaseNotFound
  else do
    let event ← m.prevEvent log req.key t.snapshotTimestamp
    let prevKv := liveKv event
    return (t.stage (putEvent req (t.snapshotTimestamp + 1) prevKv),
      { prevKv := if req.prevKv then prevKv else none })

/-- The event that `txn.delete` stages; it always includes `prev_kv`. -/
def deleteEvent (req : DeleteRangeRequest) (newRevision : Nat) (oldEvent : Event) : Event where
  type := .delete
  kv := { key := req.key, modRevision := newRevision, version := 0 }
  prevKv := some oldEvent.kv

/-- `txn.delete`. -/
def delete (m : MemoryStorage) (log : LogReader) (t : Txn) (req : DeleteRangeRequest) :
    Except TxnError (Txn × DeleteRangeResponse) :=
  if req.rangeEnd.isSome then .error .rangeEndNotSupportedByDelete
  else
    match m.revisions.getLatestRevisionByKey req.key t.snapshotTimestamp with
    | none => .ok (t, { header := some (createHeader t.snapshotTimestamp), deleted := 0 })
    | some latestRevision => do
        let oldEvent ← fetchEvent log req.key latestRevision
        match oldEvent.type with
        | .delete => .error .fatal
        | .put =>
          return (t.stage (deleteEvent req (t.snapshotTimestamp + 1) oldEvent), { deleted := 1 })

/-- `checkReadRevision`. -/
def checkReadRevision (m : MemoryStorage) (requested current : Nat) : Except TxnError Unit :=
  if requested < m.compacted then .error (.compacted requested m.compacted)
  else if current < requested then .error (.futureRev requested current)
  else .ok ()

/-- The revision a range request reads at. -/
def readAt (m : MemoryStorage) (snapshot : Nat) (req : RangeRequest) : Except TxnError Nat :=
  if 0 < req.revision then
    (m.checkReadRevision req.revision.toNat snapshot).map fun _ => req.revision.toNat
  else .ok snapshot

/-- `copyWithoutValue`. -/
def copyWithoutValue (kv : KeyValue) : KeyValue := { kv with value := [] }

/-- The `KeyValue` as the request wants it. -/
def viewKv (req : RangeRequest) (kv : KeyValue) : KeyValue :=
  if req.keysOnly then copyWithoutValue kv else kv

/-- `txn.get` once the request is checked. -/
def getKey (m : MemoryStorage) (log : LogReader) (req : RangeRequest) (key : Bytes)
    (snapshotTimestamp : Nat) : Except TxnError RangeResponse :=
  let resp : RangeResponse := { header := createHeader snapshotTimestamp }
  match m.revisions.getLatestRevisionByKey key snapshotTimestamp with
  | none => .ok resp
  | some latestRevision =>
    match log latestRevision with
    | .error e => .error (.logEntry e)
    | .ok logEntry =>
      match findEvent logEntry key with
      | none => .error .fatal
      | some event =>
        match event.type with
        | .put =>
          .ok { resp with
            kvs := [viewKv req event.kv], count := 1, more := req.limit == 1 }
        | .delete => .ok resp

/-- `txn.get`. -/
def get (m : MemoryStorage) (log : LogReader) (snapshot : Nat) (req : RangeRequest) :
    Except TxnError RangeResponse :=
  match req.key with
  | none => .error .keyRequired
  | some key =>
    if req.rangeEnd.isSome then .error .rangeEndNotSupportedByGet
    else do
      let snapshotTimestamp ← m.readAt snapshot req
      if req.countOnly then .error .countOnlyNotSupported
      else m.getKey log req key snapshotTimestamp

/-- The loop over the events of one record in `txn.list`; it stops, with `false`, at the limit. -/
def listEvents (req : RangeRequest) : RangeResponse → List Event → RangeResponse × Bool
  | resp, [] => (resp, true)
  | resp, event :: events =>
    let resp := match event.type with
      | .put =>
        { resp with
          count := resp.count + 1
          kvs := if req.countOnly then resp.kvs else resp.kvs ++ [viewKv req event.kv] }
      | .delete => resp
    if 0 < req.limit ∧ req.limit ≤ resp.count then ({ resp with more := true }, false)
    else listEvents req resp events

/-- The callback of `txn.list`, for one key of the index. -/
def listKey (log : LogReader) (req : RangeRequest) (rangeEnd : Bytes) (snapshotTimestamp : Nat)
    (s : RangeResponse × Option LogError) (key : Bytes) (revisions : List Nat) :
    (RangeResponse × Option LogError) × Bool :=
  if rangeEnd ≠ [0] ∧ rangeEnd ≤ key then (s, false)
  else if isInternalKey key then (s, true)
  else
    match Timeline.latest revisions snapshotTimestamp with
    | none => (s, true)
    | some latest =>
      match log latest with
      | .error e => ((s.1, some e), false)
      | .ok logEntry =>
        let r := listEvents req s.1 logEntry.events
        ((r.1, s.2), r.2)

/-- `txn.list`. -/
def list (m : MemoryStorage) (log : LogReader) (snapshot : Nat) (req : RangeRequest) :
    Except TxnError RangeResponse :=
  match req.rangeEnd with
  | none => .error .rangeEndRequired
  | some rangeEnd => do
      let snapshotTimestamp ← m.readAt snapshot req
      let result := m.revisions.listRevisionsByKeyRange (req.key.getD [])
        (listKey log req rangeEnd snapshotTimestamp)
        ({ header := createHeader snapshotTimestamp }, none)
      match result.2 with
      | some e => .error (.logEntry e)
      | none => return result.1

/-! ## `evaluate` -/

/-- One operation of the chosen branch. -/
def evaluateOp (m : MemoryStorage) (log : LogReader) (t : Txn) :
    RequestOp → Except TxnError (Txn × ResponseOp)
  | .put req => do
      let (t, resp) ← m.put log t req
      return (t, .put resp)
  | .deleteRange req => do
      let (t, resp) ← m.delete log t req
      return (t, .deleteRange resp)
  | .range req =>
    match req.rangeEnd with
    | none => do
        let resp ← m.get log t.snapshotTimestamp req
        let rangeKey := req.key.getD []
        return (t.addRead rangeKey (m.readRevision rangeKey t.snapshotTimestamp), .range resp)
    | some _ => do
        let resp ← m.list log t.snapshotTimestamp req
        return (t.addList, .range resp)
  | .other => throw .unsupportedOperation

/-- The loop over the operations. -/
def evaluateOps (m : MemoryStorage) (log : LogReader) :
    Txn → List ResponseOp → List RequestOp → Except TxnError (Txn × List ResponseOp)
  | t, responses, [] => .ok (t, responses)
  | t, responses, op :: ops => do
      let (t, resp) ← m.evaluateOp log t op
      m.evaluateOps log t (responses ++ [resp]) ops

/-- `MemoryStorage.evaluate`. -/
def evaluate (m : MemoryStorage) (log : LogReader) (req : TxnRequest) (snapshot : Nat) :
    Except TxnError (TxnResponse × Txn) := do
  let (txnMeta, conditionsFailed) ←
    m.evaluateCompares log snapshot (TxnMeta.new snapshot) false req.compare
  let operations := if conditionsFailed then req.failure else req.success
  let (t, responses) ← m.evaluateOps log ⟨snapshot, [], txnMeta⟩ [] operations
  return (⟨createHeader snapshot, !conditionsFailed, responses⟩, t)

/-- The end of `txn.commit`: the header and the headers of the responses get the revision of the
commit. -/
def stampResponse (resp : TxnResponse) (newLogRevision : Nat) : TxnResponse :=
  let header := { resp.header with revision := newLogRevision }
  { resp with
    header := header
    responses := resp.responses.map fun
      | .put r => .put { r with header := some header }
      | .deleteRange r => .deleteRange { r with header := some header }
      | .range r => .range { r with header := header } }

/-! ## Writers of the state -/

/-- The effect of one event in `applyUpTo` and `ReplayLog`. -/
def applyEvent (env : LeaseEnv) (revision : Nat) (m : MemoryStorage) (event : Event) :
    MemoryStorage :=
  { m with
    revisions := m.revisions.addRevision event.kv.key revision (event.type == .delete)
    leaseManager := m.leaseManager.onLogEvent env event }

/-- The effect of one record. -/
def applyRecord (env : LeaseEnv) (revision : Nat) (m : MemoryStorage) (record : LogRecord) :
    MemoryStorage :=
  record.events.foldl (applyEvent env revision) m

/-- The loop of `applyUpTo`, for the next `n` revisions. -/
def applyNext (env : LeaseEnv) (log : LogReader) :
    Nat → MemoryStorage → MemoryStorage × Except TxnError Unit
  | 0, m => (m, .ok ())
  | n + 1, m =>
    let r := m.applied + 1
    match log r with
    | .error e => (m, .error (.logEntry e))
    | .ok record => applyNext env log n { m.applyRecord env r record with applied := r }

/-- `MemoryStorage.applyUpTo`. -/
def applyUpTo (m : MemoryStorage) (env : LeaseEnv) (log : LogReader) (rev : Nat) :
    MemoryStorage × Except TxnError Unit :=
  applyNext env log (rev - m.applied) m

/-- The part of a watcher that `Compact` looks at. -/
structure WatcherView where
  closed : Bool
  delivered : Nat

/-- The revision that `Compact` lowers its argument to. -/
def compactThrough (m : MemoryStorage) (watchers : List WatcherView) (revision : Nat) : Nat :=
  watchers.foldl (fun through w => if w.closed then through else min through w.delivered)
    (min revision m.applied)

/-- The locked part of `MemoryStorage.Compact`: the new state and, unless there is nothing to do,
the point of the log compaction it starts. -/
def compact (m : MemoryStorage) (watchers : List WatcherView) (revision : Nat) :
    MemoryStorage × Option Nat :=
  let through := m.compactThrough watchers revision
  if through ≤ m.compacted then (m, none)
  else
    ({ m with revisions := (m.revisions.compact through).1, compacted := through }, some through)

/-- The `live` callback that `Compact` hands to the log. -/
def live (m : MemoryStorage) (through : Nat) (key : Bytes) (rev : Nat) : Bool :=
  m.revisions.getLatestRevisionByKey key through == some rev

/-- A storage before `ReplayLog`. -/
def new : MemoryStorage := ⟨LeaseManager.new, BPTree.empty, 0, 0⟩

/-- `ReplayLog` of a log that has records. -/
def replayLog (m : MemoryStorage) (env : LeaseEnv) (records : List (Nat × LogRecord))
    (currentRevision : Nat) : MemoryStorage :=
  { records.foldl (fun m r => m.applyRecord env r.1 r.2) m with applied := currentRevision }

end MemoryStorage

end CloudEtcd
