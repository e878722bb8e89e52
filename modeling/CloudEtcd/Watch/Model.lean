/-
# CloudEtcd.Watch.Model — watches on the storage (`memorystorage/watch.go`).

`WatchState` is a store with its watchers.  The atomic steps are those between which another goroutine
can run: a commit publishes its revisions and then, still under the log's lock, notifies the watchers one
by one under `watcherMu`; a `Watch` call checks the compacted revision, takes `watcherMu`, reads the head
and registers its watcher; the `Run` loop of a watcher wakes, reads one record after another and passes
what it collected to the callback; records are applied, the active file is rotated, the log is compacted;
`Compact` lowers its point to the watchers under `watcherMu` and, having released it, compacts the index.
A step that needs a lock is disabled while the lock is held.

The callback either takes a response, which `sent` then keeps, or fails, which ends `Run`.  The advance
of `watchDoneRevision` (and of `delivered`, its mirror for other goroutines) belongs to the step of the
callback: nothing can tell them apart.
-/
import CloudEtcd.Storage.Restart

namespace CloudEtcd

/-! ## Requests and responses -/

/-- `WatchCreateRequest_FilterType`; `other` is a value that is neither. -/
inductive WatchFilter where
  | noput
  | nodelete
  | other
  deriving DecidableEq, Repr

/-- `WatchCreateRequest`. -/
structure WatchCreateRequest where
  key : Bytes
  rangeEnd : Bytes := []
  startRevision : Int := 0
  filters : List WatchFilter := []
  prevKv : Bool := false
  watchId : Int := 0
  deriving DecidableEq, Repr

/-- `WatchResponse`. -/
structure WatchResponse where
  header : ResponseHeader
  watchId : Int
  created : Bool := false
  canceled : Bool := false
  compactRevision : Int := 0
  events : List Event := []
  deriving DecidableEq, Repr

/-- `RangeType`. -/
inductive RangeType where
  | key
  | rangeNoEnd
  | rangeNormal
  deriving DecidableEq, Repr

namespace WatchCreateRequest

/-- `Revision(req.StartRevision)`: an `int64` as a `uint64`. -/
def start (req : WatchCreateRequest) : Nat := (req.startRevision % 2 ^ 64).toNat

/-- The range type that `Watch` stores. -/
def rangeType (req : WatchCreateRequest) : RangeType :=
  if req.rangeEnd = [] then .key
  else if req.rangeEnd = [0] then .rangeNoEnd
  else .rangeNormal

/-- The switch on the range type in `collect`. -/
def inRange (req : WatchCreateRequest) (key : Bytes) : Bool :=
  match req.rangeType with
  | .key => key == req.key
  | .rangeNormal => !(decide (key < req.key) || decide (req.rangeEnd ≤ key))
  | .rangeNoEnd => !decide (key < req.key)

/-- The body of the loop over the filters; `none` is the panic on an unknown one. -/
def applyFilter (type : EventType) (shouldSend : Bool) : WatchFilter → Option Bool
  | .noput => some (if type = .put then false else shouldSend)
  | .nodelete => some (if type = .delete then false else shouldSend)
  | .other => none

/-- The body of the loop over the events in `collect`. -/
def shouldSend (req : WatchCreateRequest) (event : Event) : Option Bool :=
  if isInternalKey event.kv.key then some false
  else do
    let send ← req.filters.foldlM (applyFilter event.type) true
    if !send then return false
    return req.inRange event.kv.key

/-- The loop over the events in `collect`. -/
def sendEvents (req : WatchCreateRequest) : List Event → Option (List Event)
  | [] => some []
  | event :: events => do
      let send ← req.shouldSend event
      let rest ← req.sendEvents events
      return if send then event :: rest else rest

/-- The end of `collect`: the previous value goes unless it was asked for. -/
def stripPrevKv (req : WatchCreateRequest) (event : Event) : Event :=
  if req.prevKv then event else { type := event.type, kv := event.kv }

end WatchCreateRequest

/-- Why `collect` does not return. -/
inductive CollectError where
  | log (err : LogError)
  /-- "unknown filter" -/
  | panic
  deriving DecidableEq, Repr

/-- `collect`: the events of a revision that the watcher should receive, as it sends them. -/
def WatchCreateRequest.collect (req : WatchCreateRequest) (log : LogReader) (pos : Nat) :
    Except CollectError (List Event) :=
  match log pos with
  | .error e => .error (.log e)
  | .ok logEntry =>
    match req.sendEvents logEntry.events with
    | none => .error .panic
    | some events => .ok (events.map req.stripPrevKv)

/-! ## Watchers -/

/-- Where the `Run` loop of a watcher stands. -/
inductive RunPhase where
  /-- `Run` was not called yet. -/
  | ready
  /-- At the top of the outer loop, or in `stateCond.Wait`. -/
  | waiting
  /-- In the inner loops: the log position read, `last` and `events`. -/
  | collecting (logPosition last : Nat) (events : List Event)
  | ended
  deriving DecidableEq

/-- `Run` has returned. -/
def RunPhase.isEnded : RunPhase → Bool
  | .ended => true
  | _ => false

/-- `memoryWatcher`; `head` is the log position that `Watch` read and returned, `sent` are the responses
that the callback took, `refused` is the one on which it failed. -/
structure MemoryWatcher where
  req : WatchCreateRequest
  callback : Nat
  head : Nat
  watchDoneRevision : Nat
  logPosition : Nat
  closed : Bool
  run : RunPhase
  sent : List WatchResponse
  refused : Option WatchResponse

/-- `maxRevisionsPerResponse`. -/
def maxRevisionsPerResponse : Nat := 256

/-- `maxEventsPerResponse`. -/
def maxEventsPerResponse : Nat := 512

namespace MemoryWatcher

variable {w w' : MemoryWatcher}

/-- The watcher that `Watch` registers. -/
def new (req : WatchCreateRequest) (callback logPosition : Nat) : MemoryWatcher where
  req := req
  callback := callback
  head := logPosition
  watchDoneRevision := if req.start = 0 then logPosition else req.start - 1
  logPosition := logPosition
  closed := false
  run := .ready
  sent := []
  refused := none

/-- `Run` is called. -/
def start (w : MemoryWatcher) : Option MemoryWatcher :=
  match w.run with
  | .ready => some { w with run := .waiting }
  | _ => none

/-- The wait ends because the log has moved on. -/
def wake (w : MemoryWatcher) : Option MemoryWatcher :=
  match w.run with
  | .waiting =>
    if w.watchDoneRevision < w.logPosition then
      some { w with run := .collecting w.logPosition w.watchDoneRevision [] }
    else none
  | _ => none

/-- The wait ends because the watcher was closed or the context ended; both are looked at only when
there is nothing to send. -/
def stop (w : MemoryWatcher) : Option MemoryWatcher :=
  match w.run with
  | .waiting =>
    if w.logPosition ≤ w.watchDoneRevision then some { w with run := .ended } else none
  | _ => none

/-- The condition of the innermost loop. -/
def more (w : MemoryWatcher) (logPosition last : Nat) (events : List Event) : Bool :=
  last < logPosition && last - w.watchDoneRevision < maxRevisionsPerResponse &&
    events.length < maxEventsPerResponse

/-- The next round of the innermost loop; an error of the log ends `Run`, and the panic is `none` in the
result. -/
def collectNext (w : MemoryWatcher) (log : LogReader) : Option (Option MemoryWatcher) :=
  match w.run with
  | .collecting logPosition last events =>
    if w.more logPosition last events then
      match w.req.collect log (last + 1) with
      | .ok evs => some (some { w with run := .collecting logPosition (last + 1) (events ++ evs) })
      | .error (.log _) => some (some { w with run := .ended })
      | .error .panic => some none
    else none
  | _ => none

/-- Back at the head of the middle loop. -/
def next (w : MemoryWatcher) (logPosition : Nat) : RunPhase :=
  if w.watchDoneRevision < logPosition then .collecting logPosition w.watchDoneRevision []
  else .waiting

/-- The response for what was collected. -/
def response (w : MemoryWatcher) (last : Nat) (events : List Event) : WatchResponse where
  header := createHeader last
  watchId := w.req.watchId
  events := events

/-- The innermost loop is over: what was collected, if anything, is passed to the callback, and the
watcher advances.  The response that the callback took is returned as well. -/
def respond (w : MemoryWatcher) (taken : Bool) : Option (MemoryWatcher × Option WatchResponse) :=
  match w.run with
  | .collecting logPosition last events =>
    if w.more logPosition last events then none
    else
      let advanced := { w with watchDoneRevision := last }
      let resp := w.response last events
      if events = [] then some ({ advanced with run := advanced.next logPosition }, none)
      else if taken then
        some ({ advanced with run := advanced.next logPosition, sent := w.sent ++ [resp] },
          some resp)
      else some ({ w with run := .ended, refused := some resp }, none)
  | _ => none

/-- `Run` has returned, or it waits and has nothing to send. -/
def Rests (w : MemoryWatcher) : Prop :=
  match w.run with
  | .ended => True
  | .collecting _ _ _ => False
  | .ready | .waiting => w.logPosition ≤ w.watchDoneRevision

instance decidableRests (w : MemoryWatcher) : Decidable w.Rests := by
  unfold Rests
  split <;> infer_instance

/-- What the steps of `Run` leave alone; the watcher only advances, the responses taken are added, and a
watcher at rest stays so. -/
structure Frame (w w' : MemoryWatcher) (taken : List WatchResponse) : Prop where
  req : w'.req = w.req
  callback : w'.callback = w.callback
  head : w'.head = w.head
  logPosition : w'.logPosition = w.logPosition
  closed : w'.closed = w.closed
  advances : w.watchDoneRevision ≤ w'.watchDoneRevision
  sent : w'.sent = w.sent ++ taken
  running : w.run ≠ .ended
  rests : w.Rests → w'.Rests

/-- A step of `Run` that changes the phase, or ends. -/
theorem Frame.of_run {run : RunPhase} {refused : Option WatchResponse} (hrunning : w.run ≠ .ended)
    (hrests : w.Rests → Rests { w with run := run, refused := refused }) :
    w.Frame { w with run := run, refused := refused } [] :=
  ⟨rfl, rfl, rfl, rfl, rfl, le_rfl, (List.append_nil _).symm, hrunning, hrests⟩

theorem not_rests {logPosition last : Nat} {events : List Event}
    (hrun : w.run = .collecting logPosition last events) : w.run ≠ .ended ∧ ¬ w.Rests := by
  rw [Rests, hrun]
  exact ⟨nofun, not_false⟩

theorem start_frame (h : w.start = some w') : w.Frame w' [] := by
  unfold start at h
  split at h
  · next hrun =>
    cases h
    refine Frame.of_run (by simp [hrun]) fun hrests => ?_
    rwa [Rests, hrun] at hrests
  · cases h

theorem wake_frame (h : w.wake = some w') : w.Frame w' [] := by
  unfold wake at h
  split at h
  · next hrun =>
    split at h
    · next hlt =>
      cases h
      refine Frame.of_run (by simp [hrun]) fun hrests => ?_
      rw [Rests, hrun] at hrests
      exact absurd hlt (not_lt.mpr hrests)
    · cases h
  · cases h

theorem stop_frame (h : w.stop = some w') : w.Frame w' [] := by
  unfold stop at h
  split at h
  · next hrun =>
    split at h
    · cases h
      exact Frame.of_run (by simp [hrun]) fun _ => trivial
    · cases h
  · cases h

theorem collectNext_frame {log : LogReader} (h : w.collectNext log = some (some w')) : w.Frame w' [] := by
  unfold collectNext at h
  split at h
  · next hrun =>
    obtain ⟨hrunning, hbusy⟩ := not_rests hrun
    split at h
    · split at h
      · cases h
        exact Frame.of_run hrunning fun hrests => absurd hrests hbusy
      · cases h
        exact Frame.of_run hrunning fun hrests => absurd hrests hbusy
      · cases h
    · cases h
  · cases h

/-- The watcher advances, if `last` is not behind it. -/
theorem respond_frame {taken : Bool} {resp : Option WatchResponse}
    (hlast : ∀ logPosition last events, w.run = .collecting logPosition last events →
      w.watchDoneRevision ≤ last) (h : w.respond taken = some (w', resp)) : w.Frame w' resp.toList := by
  unfold respond at h
  split at h
  · next hrun =>
    have hle := hlast _ _ _ hrun
    obtain ⟨hrunning, hbusy⟩ := not_rests hrun
    split at h
    · cases h
    · dsimp only at h
      split at h
      · cases h
        exact ⟨rfl, rfl, rfl, rfl, rfl, hle, (List.append_nil _).symm, hrunning,
          fun hrests => absurd hrests hbusy⟩
      · split at h
        · cases h
          exact ⟨rfl, rfl, rfl, rfl, rfl, hle, rfl, hrunning, fun hrests => absurd hrests hbusy⟩
        · cases h
          exact Frame.of_run hrunning fun hrests => absurd hrests hbusy
  · cases h

/-- `Close`. -/
def close (w : MemoryWatcher) : MemoryWatcher := { w with closed := true }

/-- What `Compact` looks at. -/
def view (w : MemoryWatcher) : MemoryStorage.WatcherView := ⟨w.closed, w.watchDoneRevision⟩

end MemoryWatcher

/-! ## The store with its watchers -/

/-- Where a `Watch` call stands. -/
inductive WatchCall where
  | begin (req : WatchCreateRequest) (callback : Nat)
  /-- The compacted revision was checked. -/
  | checked (req : WatchCreateRequest) (callback : Nat)
  /-- `watcherMu` is held. -/
  | locked (req : WatchCreateRequest) (callback : Nat)
  /-- `watcherMu` is held, and the head was read. -/
  | headRead (req : WatchCreateRequest) (callback logPosition : Nat)
  /-- Returned with the watcher. -/
  | registered (watcher logPosition : Nat)
  /-- Returned with `ErrCompacted` and the compacted revision. -/
  | errCompacted (compacted : Nat)
  /-- Returned with "watch ID must be non-zero". -/
  | errWatchId

/-- The call holds `watcherMu`. -/
def WatchCall.holdsMu : WatchCall → Bool
  | .locked _ _ | .headRead _ _ _ => true
  | _ => false

/-- Where a commit stands in `OnLogEntry`; from `published` on it holds the log's lock. -/
inductive Notify where
  | idle
  /-- Published; `watcherMu` comes next. -/
  | published
  /-- In the loop over the watchers, with the number of the next one. -/
  | looping (next : Nat)
  deriving DecidableEq, Repr

/-- `OnLogEntry` holds `watcherMu` for reading. -/
def Notify.readsMu : Notify → Bool
  | .looping _ => true
  | _ => false

/-- The storage, its log and its watchers. -/
structure WatchState where
  store : Store
  notify : Notify
  calls : List WatchCall
  watchers : List MemoryWatcher
  /-- A `Compact` that holds `mu` has lowered its point to this one and released `watcherMu`. -/
  compacting : Option Nat
  /-- The points of the log compactions that are still to run. -/
  jobs : List Nat
  /-- The process has ended by a panic. -/
  halted : Bool

namespace WatchState

/-- A store without watchers. -/
def start (store : Store) : WatchState := ⟨store, .idle, [], [], none, [], false⟩

/-- Some `Watch` call holds `watcherMu`. -/
def muHeld (st : WatchState) : Bool := st.calls.any WatchCall.holdsMu

/-- A watcher changes. -/
def setWatcher (st : WatchState) (j : Nat) (w : MemoryWatcher) : WatchState :=
  { st with watchers := st.watchers.set j w }

/-- A `Watch` call moves on. -/
def setCall (st : WatchState) (i : Nat) (c : WatchCall) : WatchState :=
  { st with calls := st.calls.set i c }

/-- `commitBatch` up to the listener. -/
def commit (st : WatchState) (batch : List LogRecord) : Option WatchState :=
  match st.notify, st.store.commit st.store.log.lastRevision batch with
  | .idle, .ok store => some { st with store := store, notify := .published }
  | _, _ => none

/-- `OnLogEntry` gets `watcherMu`. -/
def notifyStart (st : WatchState) : Option WatchState :=
  match st.notify with
  | .published => if st.muHeld then none else some { st with notify := .looping 0 }
  | _ => none

/-- The body of the loop in `OnLogEntry`, and its end. -/
def notifyNext (st : WatchState) : Option WatchState :=
  match st.notify with
  | .looping n =>
    match st.watchers[n]? with
    | some w => some { st.setWatcher n { w with logPosition := st.store.log.lastRevision } with
        notify := .looping (n + 1) }
    | none => some { st with notify := .idle }
  | _ => none

/-- `Watch` reads the compacted revision under `mu`. -/
def check (st : WatchState) (i : Nat) : Option WatchState :=
  match st.calls[i]?, st.compacting with
  | some (.begin req callback), none =>
    let compacted := st.store.mem.compacted
    if 0 < req.start ∧ req.start ≤ compacted then some (st.setCall i (.errCompacted compacted))
    else some (st.setCall i (.checked req callback))
  | _, _ => none

/-- `Watch` gets `watcherMu` and looks at the watch ID. -/
def lock (st : WatchState) (i : Nat) : Option WatchState :=
  match st.calls[i]? with
  | some (.checked req callback) =>
    if st.muHeld || st.notify.readsMu then none
    else if req.watchId = 0 then some (st.setCall i .errWatchId)
    else some (st.setCall i (.locked req callback))
  | _ => none

/-- `Watch` reads the head under the log's lock. -/
def readHead (st : WatchState) (i : Nat) : Option WatchState :=
  match st.calls[i]?, st.notify with
  | some (.locked req callback), .idle =>
    some (st.setCall i (.headRead req callback st.store.log.lastRevision))
  | _, _ => none

/-- `Watch` appends its watcher and returns. -/
def register (st : WatchState) (i : Nat) : Option WatchState :=
  match st.calls[i]? with
  | some (.headRead req callback logPosition) =>
    some { st.setCall i (.registered st.watchers.length logPosition) with
      watchers := st.watchers ++ [MemoryWatcher.new req callback logPosition] }
  | _ => none

/-- `applyUpTo`, under `mu`. -/
def applyUpTo (st : WatchState) (rev : Nat) (env : LeaseEnv) (fails : Nat → Bool) : Option WatchState :=
  match st.compacting with
  | none => some { st with store := (st.store.applyUpTo env fails rev).1 }
  | some _ => none

/-- `MemoryStorage.Compact` takes `mu` and lowers its point under `watcherMu`; it keeps `mu` if there is
something to compact.  A loop over the watchers that others interleave with finds the point of a call with
a lower revision. -/
def compact (st : WatchState) (revision : Nat) : Option WatchState :=
  match st.compacting with
  | none =>
    if st.muHeld then none
    else
      let through := st.store.mem.compactThrough (st.watchers.map MemoryWatcher.view) revision
      if through ≤ st.store.mem.compacted then some st else some { st with compacting := some through }
  | some _ => none

/-- `MemoryStorage.Compact` compacts the index, sets `compacted` and releases `mu`; `watcherMu` is free, and
no watcher lowers the point again. -/
def compactIndex (st : WatchState) : Option WatchState :=
  st.compacting.map fun through =>
    let r := st.store.compact [] through
    { st with store := r.1, compacting := none, jobs := st.jobs ++ r.2.toList }

/-- A log compaction, in one step; its `live` callback takes `mu`. -/
def compactLog (st : WatchState) (n : Nat) : Option WatchState :=
  match st.notify, st.compacting, st.jobs[n]? with
  | .idle, none, some through =>
    some { st with store := st.store.compactLog through, jobs := st.jobs.eraseIdx n }
  | _, _, _ => none

/-- A watcher reads the next record; the read may fail. -/
def collectNext (st : WatchState) (j : Nat) (fails : Bool) : Option WatchState :=
  st.watchers[j]?.bind fun w =>
    (w.collectNext (st.store.reader fun _ => fails)).map fun r =>
      match r with
      | some w => st.setWatcher j w
      | none => { st with halted := true }

/-- Who moves, and what chance decides. -/
inductive Action where
  | commit (batch : List LogRecord)
  | notifyStart
  | notifyNext
  | rotate
  | touch (revision : Nat)
  | applyUpTo (rev : Nat) (env : LeaseEnv) (fails : Nat → Bool)
  | compact (revision : Nat)
  | compactIndex
  | compactLog (n : Nat)
  | watch (req : WatchCreateRequest) (callback : Nat)
  | check (i : Nat)
  | lock (i : Nat)
  | readHead (i : Nat)
  | register (i : Nat)
  | startRun (j : Nat)
  | wake (j : Nat)
  | collectNext (j : Nat) (fails : Bool)
  | respond (j : Nat) (taken : Bool)
  | stop (j : Nat)
  | close (j : Nat)

/-- One step of a process that has not ended. -/
def move (st : WatchState) : Action → Option WatchState
  | .commit batch => st.commit batch
  | .notifyStart => st.notifyStart
  | .notifyNext => st.notifyNext
  | .rotate =>
    match st.notify with
    | .idle => some { st with store := st.store.rotate }
    | _ => none
  | .touch revision => some { st with store := st.store.touch revision }
  | .applyUpTo rev env fails => st.applyUpTo rev env fails
  | .compact revision => st.compact revision
  | .compactIndex => st.compactIndex
  | .compactLog n => st.compactLog n
  | .watch req callback => some { st with calls := st.calls ++ [.begin req callback] }
  | .check i => st.check i
  | .lock i => st.lock i
  | .readHead i => st.readHead i
  | .register i => st.register i
  | .startRun j => st.watchers[j]?.bind fun w => w.start.map (st.setWatcher j)
  | .wake j => st.watchers[j]?.bind fun w => w.wake.map (st.setWatcher j)
  | .collectNext j fails => st.collectNext j fails
  | .respond j taken =>
    st.watchers[j]?.bind fun w => (w.respond taken).map fun r => st.setWatcher j r.1
  | .stop j => st.watchers[j]?.bind fun w => w.stop.map (st.setWatcher j)
  | .close j => st.watchers[j]?.map fun w => st.setWatcher j w.close

/-- One step. -/
def step (st : WatchState) (a : Action) : Option WatchState :=
  if st.halted then none else st.move a

end WatchState

end CloudEtcd
