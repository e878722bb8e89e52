/-
# CloudEtcd.Persistence.Batch — group commit with backward validation (`pkg/persistence/batch`).

Transactions join an open batch while their point sets allow it (`canBatchWith`), a batch is
validated against the writes committed since its transactions' snapshots and given contiguous
revisions (`prepare`), and its results are delivered after the commit.  `Batcher` is `Batching` with
its flusher: an `Add` call, the flusher taking the next batch, preparing and committing it, and
delivering the results are its atomic steps, taken in any order the locks allow.

`Batcher` also remembers what it has flushed.  `Flush` is one call of `flushBatch`: the batch, the
position and the committed writes it started from, and the transactions it accepted.
-/
import CloudEtcd.Lib.Transition
import CloudEtcd.Persistence.Types

namespace CloudEtcd

/-! ## One batch -/

/-- `PendingTxn`; a result channel is named by a number. -/
structure PendingTxn where
  logRecord : LogRecord
  txnMeta : TxnMeta
  resultChan : Nat

/-- `BatchResult` (the `Error` field is never set). -/
structure BatchResult where
  revision : Nat
  success : Bool
  deriving DecidableEq, Repr

/-- `TxnBatch`; the `committedWrites` map it shares belongs to `Batching`. -/
structure TxnBatch where
  flushed : Bool
  pendingBatch : List PendingTxn

/-- `CanBatchTogether`. -/
def canBatchTogether (existing other : TxnMeta) : Bool :=
  (existing.writeSet.keys.all fun key => !(other.writeSet.getD key false)) &&
    other.readSet.keys.all fun key => !(existing.writeSet.getD key false)

/-- `TxnBatch.CanBatchWith`. -/
def TxnBatch.canBatchWith (b : TxnBatch) (txnMeta : TxnMeta) : Bool :=
  b.pendingBatch.all fun txn => canBatchTogether txn.txnMeta txnMeta

/-- `TxnBatch.add`. -/
def TxnBatch.add (b : TxnBatch) (txn : PendingTxn) : TxnBatch :=
  { b with pendingBatch := b.pendingBatch ++ [txn] }

/-- `validateTxn`. -/
def validateTxn (txnMeta : TxnMeta) (lastLogPosition : Nat)
    (committedWrites : GoMap Bytes Nat) : Bool :=
  if txnMeta.hasRangeRead then
    txnMeta.snapshotRevision == lastLogPosition
  else
    (txnMeta.readSet.entries.all fun e => !(committedWrites.getD e.1 0 > e.2)) &&
      txnMeta.writeSet.keys.all fun key =>
        !(committedWrites.getD key 0 > txnMeta.snapshotRevision)

/-- The re-stamping of one event in `prepare`. -/
def restampEvent (revision : Nat) (event : Event) : Event :=
  match event.type with
  | .put =>
    { event with
      kv := { event.kv with
        createRevision :=
          if event.kv.createRevision = event.kv.modRevision then revision
          else event.kv.createRevision
        modRevision := revision } }
  | .delete => { event with kv := { event.kv with modRevision := revision } }

/-- The re-stamping of a record in `prepare`. -/
def restamp (revision : Nat) (logRecord : LogRecord) : LogRecord :=
  ⟨logRecord.events.map (restampEvent revision)⟩

/-- The state of the loop in `prepare`: the revision last assigned, the surviving transactions with
their revisions, the rejected channels and the shared map. -/
structure Prepared where
  revision : Nat
  transactions : List (Nat × PendingTxn)
  rejected : List Nat
  committedWrites : GoMap Bytes Nat

/-- The body of the loop in `prepare`. -/
def prepareTxn (lastLogPosition : Nat) (p : Prepared) (txn : PendingTxn) : Prepared :=
  if validateTxn txn.txnMeta lastLogPosition p.committedWrites then
    let revision := p.revision + 1
    { p with
      revision := revision
      transactions := p.transactions ++
        [(revision, { txn with logRecord := restamp revision txn.logRecord })]
      committedWrites := p.committedWrites.setAll txn.txnMeta.writeSet.keys revision }
  else
    { p with rejected := p.rejected ++ [txn.resultChan] }

/-- `TxnBatch.prepare`: the batch marked as flushed, and the outcome.  An already flushed batch
prepares to nothing. -/
def TxnBatch.prepare (b : TxnBatch) (lastLogPosition : Nat)
    (committedWrites : GoMap Bytes Nat) : TxnBatch × Prepared :=
  let start : Prepared := ⟨lastLogPosition, [], [], committedWrites⟩
  if b.flushed || b.pendingBatch.isEmpty then (b, start)
  else ({ b with flushed := true }, b.pendingBatch.foldl (prepareTxn lastLogPosition) start)

/-! ## Batching and its flusher -/

/-- One call of `flushBatch`, as it started and what it accepted. -/
structure Flush where
  batch : TxnBatch
  lastLogPosition : Nat
  committedWrites : GoMap Bytes Nat
  accepted : List (Nat × PendingTxn)

/-- What the flusher goroutine has in hand. -/
inductive Flusher where
  | idle
  | holding (batch : TxnBatch)
  | delivering (results : List (Nat × BatchResult))
  | exited

/-- `Batching` and its flusher, the results on the channels, the number of `Add` calls so far, and
the flushes made. -/
structure Batcher where
  openBatch : Option TxnBatch
  stop : Bool
  flushQueue : List TxnBatch
  lastLogPosition : Nat
  committedWrites : GoMap Bytes Nat
  flusher : Flusher
  results : GoMap Nat BatchResult
  added : Nat
  flushes : List Flush

namespace Batcher

/-- `NewBatching`. -/
def new (lastLogPosition : Nat) : Batcher where
  openBatch := none
  stop := false
  flushQueue := []
  lastLogPosition := lastLogPosition
  committedWrites := ∅
  flusher := .idle
  results := ∅
  added := 0
  flushes := []

/-- The locked part of `Batching.Add`: join the open batch, or close it and open another.  The new
result channel is `b.added`. -/
def add (b : Batcher) (logRecord : LogRecord) (txnMeta : TxnMeta) : Batcher :=
  let txn : PendingTxn := ⟨logRecord, txnMeta, b.added⟩
  let fresh : TxnBatch := ⟨false, [txn]⟩
  match b.openBatch with
  | some batch =>
    if batch.canBatchWith txnMeta then
      { b with openBatch := some (batch.add txn), added := b.added + 1 }
    else
      { b with
        flushQueue := b.flushQueue ++ [batch]
        openBatch := some fresh
        added := b.added + 1 }
  | none => { b with openBatch := some fresh, added := b.added + 1 }

/-- The end of a locked section of `doBackgroundFlush`: take the oldest closed batch, else the open
one; with neither, leave if stopped and wait otherwise. -/
def pick (b : Batcher) : Option Batcher :=
  match b.flusher, b.flushQueue, b.openBatch with
  | .idle, batch :: queue, _ => some { b with flushQueue := queue, flusher := .holding batch }
  | .idle, [], some batch => some { b with openBatch := none, flusher := .holding batch }
  | .idle, [], none => if b.stop then some { b with flusher := .exited } else none
  | _, _, _ => none

/-- The results of a batch: the survivors' revisions, then the rejections. -/
def resultsOf (p : Prepared) : List (Nat × BatchResult) :=
  (p.transactions.map fun t => (t.2.resultChan, ⟨t.1, true⟩)) ++
    p.rejected.map fun ch => (ch, ⟨0, false⟩)

/-- `flushBatch` up to the return of the `FlushFunc`, which is handed the survivors; `none` when the
flusher holds no batch. -/
def flush (b : Batcher) : Option (Batcher × List (Nat × PendingTxn)) :=
  match b.flusher with
  | .holding batch =>
    let p := (batch.prepare b.lastLogPosition b.committedWrites).2
    some ({ b with
      lastLogPosition := b.lastLogPosition + p.transactions.length
      committedWrites := p.committedWrites
      flusher := .delivering (resultsOf p)
      flushes := b.flushes ++
        [⟨batch, b.lastLogPosition, b.committedWrites, p.transactions⟩] }, p.transactions)
  | _ => none

/-- The rest of `flushBatch`: deliver the results. -/
def deliver (b : Batcher) : Option Batcher :=
  match b.flusher with
  | .delivering results =>
    some { b with
      flusher := .idle
      results := results.foldl (fun m r => m.insert r.1 r.2) b.results }
  | _ => none

/-- The locked part of `Batching.Close`. -/
def close (b : Batcher) : Batcher := { b with stop := true }

/-- The transactions committed so far, with their revisions. -/
def accepted (b : Batcher) : List (Nat × PendingTxn) := b.flushes.flatMap Flush.accepted

/-- The batch the flusher is about to prepare. -/
def inHand (b : Batcher) : List TxnBatch :=
  match b.flusher with
  | .holding batch => [batch]
  | _ => []

/-- The batches that are not prepared yet, oldest first. -/
def batches (b : Batcher) : List TxnBatch := b.inHand ++ b.flushQueue ++ b.openBatch.toList

/-- The steps of clients and of the flusher. -/
inductive Action where
  | add (logRecord : LogRecord) (txnMeta : TxnMeta)
  | pick
  | flush
  | deliver
  | close

/-- One step, with a `FlushFunc` that succeeds. -/
def step (b : Batcher) : Action → Option Batcher
  | .add logRecord txnMeta => some (b.add logRecord txnMeta)
  | .pick => b.pick
  | .flush => b.flush.map Prod.fst
  | .deliver => b.deliver
  | .close => some b.close

end Batcher

end CloudEtcd
