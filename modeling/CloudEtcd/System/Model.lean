/-
# CloudEtcd.System.Model — one process: transactions, batches, applies and compactions interleaved.

The atomic steps are those between which another goroutine can run: a `Txn` call reads the head,
applies records up to it, evaluates under the read lock, joins a batch, receives its result and
applies again; the flusher takes, commits and delivers batches; any goroutine may call `applyUpTo`,
`Compact` or `GetLogEntry`; a background compaction of the log makes its `live` calls one at a time;
the active file may be rotated.  What watchers and the lease manager do by themselves is left open:
their states may change arbitrarily between steps.

An `Evaluation` remembers the store at which a transaction was evaluated, and `submissions` keeps
every transaction that joined a batch, by its result channel.
-/
import CloudEtcd.Persistence.Validation
import CloudEtcd.Storage.Evaluation
import CloudEtcd.Storage.Store

namespace CloudEtcd

/-! ## State -/

/-- What `evaluate` returned, and the store it read. -/
structure Evaluation where
  store : Store
  resp : TxnResponse
  txn : Txn

/-- Where a `Txn` call stands. -/
inductive Phase where
  /-- At the start of `tryTxn`. -/
  | begin
  /-- The head has been read; `applyUpTo` of it comes next. -/
  | snapshot (head : Nat)
  /-- `evaluate` comes next. -/
  | ready (snapshot : Nat)
  /-- `commit` comes next. -/
  | evaluated (ev : Evaluation)
  /-- In `Batching.Add`, waiting for the result. -/
  | waiting (ev : Evaluation) (resultChan : Nat)
  /-- Committed; `applyUpTo` of the new revision comes next. -/
  | committed (ev : Evaluation) (revision : Nat)
  | done (result : Except TxnError TxnResponse)

/-- A `Txn` call. -/
structure Client where
  req : TxnRequest
  attempt : Nat
  phase : Phase

/-- The error that a call ended with. -/
def Client.error (c : Client) : Option TxnError :=
  match c.phase with
  | .done (.error err) => some err
  | _ => none

/-- A transaction that joined a batch. -/
structure Submission where
  req : TxnRequest
  ev : Evaluation

/-- The process. -/
structure System where
  store : Store
  batcher : Batcher
  watchers : List MemoryStorage.WatcherView
  clients : List Client
  /-- The points of the log compactions that wait for `compactMu`. -/
  jobs : List Nat
  /-- The log compaction that holds `compactMu`, with its point. -/
  running : Option (Nat × FilesystemLog.Compaction)
  submissions : List Submission
  /-- The process has ended: `klog.Fatalf` or a panic. -/
  halted : Bool

namespace System

/-- The process after `NewFilesystemLog` and `NewMemoryStorage`.  The first record of an empty log
goes through the batching layer too and leaves `committedWrites` empty. -/
def start (env : LeaseEnv) (log : FilesystemLog) : Except CommitError System := do
  let store ← Store.start env log
  return {
    store := store
    batcher := Batcher.new store.log.lastRevision
    watchers := []
    clients := []
    jobs := []
    running := none
    submissions := []
    halted := false }

/-! ## Steps of a `Txn` call -/

/-- `maxTxnAttempts`. -/
def maxTxnAttempts : Nat := 64

/-- A call moves on. -/
def setPhase (sys : System) (i : Nat) (c : Client) (phase : Phase) : System :=
  { sys with clients := sys.clients.set i { c with phase := phase } }

/-- `GetCurrentRevision` at the start of `tryTxn`. -/
def readHead (sys : System) (i : Nat) (c : Client) : Option System :=
  match c.phase with
  | .begin => some (sys.setPhase i c (.snapshot sys.store.log.lastRevision))
  | _ => none

/-- The call's own `applyUpTo`: before `evaluate`, or after the commit. -/
def apply (sys : System) (i : Nat) (c : Client) (env : LeaseEnv) (fails : Nat → Bool) :
    Option System :=
  match c.phase with
  | .snapshot head =>
    let r := sys.store.applyUpTo env fails head
    let sys := { sys with store := r.1 }
    match r.2 with
    | .ok () => some (sys.setPhase i c (.ready head))
    | .error e => some (sys.setPhase i c (.done (.error e)))
  | .committed ev revision =>
    let r := sys.store.applyUpTo env fails revision
    let sys := { sys with store := r.1 }
    match r.2 with
    | .ok () =>
      some (sys.setPhase i c (.done (.ok (MemoryStorage.stampResponse ev.resp revision))))
    | .error e => some (sys.setPhase i c (.done (.error e)))
  | _ => none

/-- `evaluate` under the read lock. -/
def evaluate (sys : System) (i : Nat) (c : Client) : Option System :=
  match c.phase with
  | .ready snapshot =>
    match sys.store.mem.evaluate sys.store.log.read c.req snapshot with
    | .ok (resp, txn) => some (sys.setPhase i c (.evaluated ⟨sys.store, resp, txn⟩))
    | .error .fatal => some { sys with halted := true }
    | .error e => some (sys.setPhase i c (.done (.error e)))
  | _ => none

/-- `commit` up to the wait in `Add`; a transaction without events is done. -/
def append (sys : System) (i : Nat) (c : Client) : Option System :=
  match c.phase with
  | .evaluated ev =>
    if ev.txn.logEvents.isEmpty then some (sys.setPhase i c (.done (.ok ev.resp)))
    else
      let next := sys.setPhase i c (.waiting ev sys.batcher.added)
      some { next with
        batcher := sys.batcher.add ⟨ev.txn.logEvents⟩ ev.txn.txnMeta
        submissions := sys.submissions ++ [⟨c.req, ev⟩] }
  | _ => none

/-- The result arrives; a rejected transaction is tried again. -/
def receive (sys : System) (i : Nat) (c : Client) : Option System :=
  match c.phase with
  | .waiting ev resultChan =>
    match sys.batcher.results.lookup resultChan with
    | none => none
    | some result =>
      if result.success then some (sys.setPhase i c (.committed ev result.revision))
      else
        let attempt := c.attempt + 1
        let phase := if attempt < maxTxnAttempts then .begin else .done (.error .conflicted)
        some (sys.setPhase i { c with attempt := attempt } phase)
  | _ => none

/-- The caller's context ends during the wait; the transaction stays in its batch. -/
def abandon (sys : System) (i : Nat) (c : Client) : Option System :=
  match c.phase with
  | .waiting _ _ => some (sys.setPhase i c (.done (.error .canceled)))
  | _ => none

/-! ## Steps of the flusher and of compactions -/

/-- `flushBatch` up to the return of `commitBatch`; a batch of which nothing survives is not
committed, and a commit that fails ends the process. -/
def flush (sys : System) : Option System :=
  match sys.batcher.flush with
  | none => none
  | some (batcher, []) => some { sys with batcher := batcher }
  | some (batcher, commit) =>
    match sys.store.commit sys.batcher.lastLogPosition (commit.map (·.2.logRecord)) with
    | .ok store => some { sys with batcher := batcher, store := store }
    | .error _ => some { sys with halted := true }

/-- `MemoryStorage.Compact`. -/
def compact (sys : System) (revision : Nat) : System :=
  let r := sys.store.compact sys.watchers revision
  { sys with store := r.1, jobs := sys.jobs ++ r.2.toList }

/-- A waiting log compaction gets `compactMu`. -/
def startJob (sys : System) (n : Nat) : Option System :=
  match sys.running, sys.jobs[n]? with
  | none, some through =>
    some { sys with
      jobs := sys.jobs.eraseIdx n
      running := (FilesystemLog.Compaction.start sys.store.log through).map (through, ·) }
  | _, _ => none

/-- The next step of the running log compaction. -/
def stepJob (sys : System) : Option System :=
  match sys.running with
  | none => none
  | some (through, job) =>
    let r := job.step sys.store.log (sys.store.mem.live through)
    some { sys with
      store := { sys.store with log := r.1 }
      running := r.2.map (through, ·) }

/-- The running log compaction gives up on an error. -/
def failJob (sys : System) : Option System :=
  match sys.running with
  | none => none
  | some _ => some { sys with running := none }

/-! ## Actions -/

/-- Who moves, and what chance decides. -/
inductive Action where
  | request (req : TxnRequest)
  | readHead (i : Nat)
  | apply (i : Nat) (env : LeaseEnv) (fails : Nat → Bool)
  | evaluate (i : Nat)
  | append (i : Nat)
  | receive (i : Nat)
  | abandon (i : Nat)
  | pick
  | flush
  | deliver
  | close
  | applyUpTo (rev : Nat) (env : LeaseEnv) (fails : Nat → Bool)
  | compact (revision : Nat)
  | startJob (n : Nat)
  | stepJob
  | failJob
  | rotate
  | touch (revision : Nat)
  | watchers (watchers : List MemoryStorage.WatcherView)
  | leases (leaseManager : LeaseManager)

/-- One step of a process that has not ended. -/
def move (sys : System) : Action → Option System
  | .request req => some { sys with clients := sys.clients ++ [⟨req, 0, .begin⟩] }
  | .readHead i => sys.clients[i]?.bind (sys.readHead i)
  | .apply i env fails => sys.clients[i]?.bind fun c => sys.apply i c env fails
  | .evaluate i => sys.clients[i]?.bind (sys.evaluate i)
  | .append i => sys.clients[i]?.bind (sys.append i)
  | .receive i => sys.clients[i]?.bind (sys.receive i)
  | .abandon i => sys.clients[i]?.bind (sys.abandon i)
  | .pick => sys.batcher.pick.map fun b => { sys with batcher := b }
  | .flush => sys.flush
  | .deliver => sys.batcher.deliver.map fun b => { sys with batcher := b }
  | .close => some { sys with batcher := sys.batcher.close }
  | .applyUpTo rev env fails => some { sys with store := (sys.store.applyUpTo env fails rev).1 }
  | .compact revision => some (sys.compact revision)
  | .startJob n => sys.startJob n
  | .stepJob => sys.stepJob
  | .failJob => sys.failJob
  | .rotate => some { sys with store := sys.store.rotate }
  | .touch revision => some { sys with store := sys.store.touch revision }
  | .watchers watchers => some { sys with watchers := watchers }
  | .leases leaseManager =>
    let mem := { sys.store.mem with leaseManager := leaseManager }
    some { sys with store := { sys.store with mem := mem } }

/-- One step. -/
def step (sys : System) (a : Action) : Option System := if sys.halted then none else sys.move a

/-! ## What a step does to the store -/

/-- The store after a step: as it was, or changed in one of the ways in which the storage and the log can
change. -/
inductive StoreStep (sys : System) : Action → Store → Prop
  | same {a : Action} : StoreStep sys a sys.store
  | apply {a : Action} (env : LeaseEnv) (fails : Nat → Bool) (rev : Nat) :
      StoreStep sys a (sys.store.applyUpTo env fails rev).1
  | commit {a : Action} {position : Nat} {batch : List LogRecord} {store : Store}
      (hcommit : sys.store.commit position batch = .ok store) : StoreStep sys a store
  | compact (revision : Nat) :
      StoreStep sys (.compact revision) (sys.store.compact sys.watchers revision).1
  | rotate {a : Action} : StoreStep sys a sys.store.rotate
  | touch {a : Action} (revision : Nat) : StoreStep sys a (sys.store.touch revision)
  | job {through : Nat} {job : FilesystemLog.Compaction}
      (hrunning : sys.running = some (through, job)) :
      StoreStep sys .stepJob
        { sys.store with log := (job.step sys.store.log (sys.store.mem.live through)).1 }
  | leases (leaseManager : LeaseManager) :
      StoreStep sys (.leases leaseManager)
        { sys.store with mem := { sys.store.mem with leaseManager := leaseManager } }

/-- What a step does to the log compactions: nothing, or it is one of the four steps about them. -/
inductive Effect (sys : System) (a : Action) : System → Prop
  | compact (revision : Nat) (ha : a = .compact revision) : Effect sys a (sys.compact revision)
  | startJob {n : Nat} {sys' : System} (hstart : sys.startJob n = some sys') : Effect sys a sys'
  | stepJob {sys' : System} (ha : a = .stepJob) (hjob : sys.stepJob = some sys') : Effect sys a sys'
  | failJob : Effect sys a { sys with running := none }
  | other {sys' : System} (hjobs : sys'.jobs = sys.jobs) (hrunning : sys'.running = sys.running)
      (hne : a ≠ .stepJob) (hstore : StoreStep sys a sys'.store) : Effect sys a sys'

variable {sys sys' : System} {a : Action}

theorem step_effect (hstep : sys.step a = some sys') : Effect sys a sys' := by
  unfold step at hstep
  split at hstep
  · cases hstep
  · cases a with
    | compact revision =>
      cases hstep
      exact .compact revision rfl
    | startJob n => exact .startJob hstep
    | stepJob => exact .stepJob rfl hstep
    | failJob =>
      simp only [move, failJob] at hstep
      split at hstep <;> cases hstep
      exact .failJob
    | request _ | close | watchers _ =>
      cases hstep
      exact .other rfl rfl nofun .same
    | applyUpTo rev env fails =>
      cases hstep
      exact .other rfl rfl nofun (.apply env fails rev)
    | rotate =>
      cases hstep
      exact .other rfl rfl nofun .rotate
    | touch revision =>
      cases hstep
      exact .other rfl rfl nofun (.touch revision)
    | leases leaseManager =>
      cases hstep
      exact .other rfl rfl nofun (.leases leaseManager)
    | pick | deliver =>
      obtain ⟨b, -, rfl⟩ := Option.map_eq_some_iff.mp hstep
      exact .other rfl rfl nofun .same
    | readHead i =>
      obtain ⟨c, -, hs⟩ := Option.bind_eq_some_iff.mp hstep
      unfold readHead at hs
      split at hs <;> cases hs
      exact .other rfl rfl nofun .same
    | apply i env fails =>
      obtain ⟨c, -, hs⟩ := Option.bind_eq_some_iff.mp hstep
      simp only [apply] at hs
      split at hs
      · next head _ => split at hs <;> cases hs <;> exact .other rfl rfl nofun (.apply env fails head)
      · next rev _ => split at hs <;> cases hs <;> exact .other rfl rfl nofun (.apply env fails rev)
      · cases hs
    | evaluate i =>
      obtain ⟨c, -, hs⟩ := Option.bind_eq_some_iff.mp hstep
      unfold evaluate at hs
      split at hs
      · split at hs <;> cases hs <;> exact .other rfl rfl nofun .same
      · cases hs
    | append i =>
      obtain ⟨c, -, hs⟩ := Option.bind_eq_some_iff.mp hstep
      unfold append at hs
      split at hs
      · split at hs <;> cases hs <;> exact .other rfl rfl nofun .same
      · cases hs
    | receive i =>
      obtain ⟨c, -, hs⟩ := Option.bind_eq_some_iff.mp hstep
      simp only [receive] at hs
      split at hs
      · split at hs
        · cases hs
        · split at hs <;> cases hs <;> exact .other rfl rfl nofun .same
      · cases hs
    | abandon i =>
      obtain ⟨c, -, hs⟩ := Option.bind_eq_some_iff.mp hstep
      unfold abandon at hs
      split at hs <;> cases hs
      exact .other rfl rfl nofun .same
    | flush =>
      simp only [move, flush] at hstep
      split at hstep
      · cases hstep
      · cases hstep
        exact .other rfl rfl nofun .same
      · split at hstep
        · next hcommit =>
          cases hstep
          exact .other rfl rfl nofun (.commit hcommit)
        · cases hstep
          exact .other rfl rfl nofun .same

theorem step_store (hstep : sys.step a = some sys') : StoreStep sys a sys'.store := by
  cases step_effect hstep with
  | compact revision ha => exact ha ▸ .compact revision
  | startJob hstart =>
    unfold startJob at hstart
    split at hstart <;> cases hstart
    exact .same
  | stepJob ha hjob =>
    unfold stepJob at hjob
    split at hjob <;> cases hjob
    next hrunning => exact ha ▸ .job hrunning
  | failJob => exact .same
  | other _ _ _ hstore => exact hstore

end System

end CloudEtcd
