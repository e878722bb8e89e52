/-
# CloudEtcd.Watch.Delivery — a watch delivers every event once, in order and without gaps.

`WatchState.Inv` puts the watchers on a store together: each has passed on what it owes, and `HeadKnown`
says who knows the head of the log, so that no wakeup is lost.  A registration and a notification exclude
each other on `watcherMu`, and a head is only read while no commit is between publishing and notifying.
-/
import CloudEtcd.Lib.Transition
import CloudEtcd.Storage.Restart
import CloudEtcd.Watch.Watcher

namespace CloudEtcd

open Cursor

/-- Without watchers, `Compact` goes up to the revision that it is given at most. -/
theorem MemoryStorage.compacted_compact_le (m : MemoryStorage) (revision : Nat) :
    (m.compact [] revision).1.compacted ≤ max m.compacted revision := by
  unfold compact
  dsimp only
  split
  · exact le_max_left _ _
  · exact le_max_of_le_right (min_le_left _ _)

/-! ## All watchers -/

namespace WatchState

/-- Who knows the head of the log. -/
def HeadKnown (st : WatchState) : Notify → Prop
  | .idle => (∀ w ∈ st.watchers, w.logPosition = st.store.log.lastRevision) ∧
      ∀ req callback pos, .headRead req callback pos ∈ st.calls →
        pos = st.store.log.lastRevision
  | .published => True
  | .looping n => (∀ (j : Nat) (w : MemoryWatcher), j < n → st.watchers[j]? = some w →
      w.logPosition = st.store.log.lastRevision) ∧ st.muHeld = false

/-- The revision up to which the index is compacted or is about to be. -/
def point (st : WatchState) : Nat := max st.store.mem.compacted (st.compacting.getD 0)

/-- The invariant of the store with its watchers.  While a call holds `watcherMu`, no `Compact` can choose
its point, so a head that was read is not below it. -/
structure Inv (st : WatchState) : Prop where
  store : st.store.LogInv
  watchers : ∀ w ∈ st.watchers, w.Inv st.store.history st.store.log.lastRevision
  reads : ∀ req callback pos, .headRead req callback pos ∈ st.calls →
    st.point ≤ pos ∧ pos ≤ st.store.log.lastRevision
  point_le : st.point ≤ st.store.mem.applied
  headKnown : st.HeadKnown st.notify

variable {st st' : WatchState}

theorem Inv.start {s : Store} (h : s.LogInv) : Inv (start s) where
  store := h
  watchers := List.forall_mem_nil _
  reads _ _ _ hmem := by cases hmem
  point_le := by simpa [point, WatchState.start] using h.compacted_le
  headKnown := ⟨List.forall_mem_nil _, fun _ _ _ hmem => by cases hmem⟩

theorem not_mem_of_muHeld (hmu : st.muHeld = false) {req : WatchCreateRequest} {callback pos : Nat} :
    .headRead req callback pos ∉ st.calls := by
  intro hmem
  rw [muHeld, List.any_eq_false] at hmu
  exact hmu _ hmem rfl

section

variable (h : st.Inv)
include h

/-- A step of the store that commits nothing. -/
theorem Inv.withStore {store : Store} {compacting : Option Nat} {jobs : List Nat} (hstore : store.LogInv)
    (hhist : store.history = st.store.history)
    (hlast : store.log.lastRevision = st.store.log.lastRevision)
    (hle : max store.mem.compacted (compacting.getD 0) ≤ store.mem.applied)
    (hpoint : max store.mem.compacted (compacting.getD 0) ≤ st.point ∨ st.muHeld = false) :
    Inv { st with store := store, compacting := compacting, jobs := jobs } := by
  refine ⟨hstore, ?_, fun req callback pos hmem => ?_, hle, ?_⟩
  · show ∀ w ∈ st.watchers, w.Inv store.history store.log.lastRevision
    rw [hhist, hlast]
    exact h.watchers
  · show _ ∧ pos ≤ store.log.lastRevision
    rw [hlast]
    obtain ⟨hlow, hhigh⟩ := h.reads req callback pos hmem
    refine ⟨hpoint.elim (fun hpoint => hpoint.trans hlow) fun hmu => ?_, hhigh⟩
    exact absurd hmem (not_mem_of_muHeld hmu)
  · have hknown := h.headKnown
    unfold HeadKnown at hknown ⊢
    dsimp only
    rw [hlast]
    exact hknown

/-- A watcher moves by itself. -/
theorem Inv.setWatcher {j : Nat} {w w' : MemoryWatcher} (hj : st.watchers[j]? = some w)
    (hw' : w'.Inv st.store.history st.store.log.lastRevision)
    (hpos : w'.logPosition = w.logPosition) : (st.setWatcher j w').Inv := by
  have hw := List.mem_of_getElem? hj
  refine ⟨h.store, fun v hv => ?_, h.reads, h.point_le, ?_⟩
  · rcases List.mem_or_eq_of_mem_set hv with hv | rfl
    · exact h.watchers v hv
    · exact hw'
  · have hknown := h.headKnown
    change HeadKnown _ st.notify
    cases hn : st.notify with
    | published => trivial
    | idle =>
      rw [hn] at hknown
      refine ⟨fun v hv => ?_, hknown.2⟩
      rcases List.mem_or_eq_of_mem_set hv with hv | rfl
      · exact hknown.1 v hv
      · exact hpos.trans (hknown.1 w hw)
    | looping n =>
      rw [hn] at hknown
      refine ⟨fun i v hin hv => ?_, hknown.2⟩
      by_cases hij : j = i
      · subst hij
        rw [WatchState.setWatcher, List.getElem?_set_self (List.getElem?_eq_some_iff.mp hj).1]
          at hv
        obtain rfl := Option.some.inj hv
        exact hpos.trans (hknown.1 j w hin hj)
      · rw [WatchState.setWatcher, List.getElem?_set_ne hij] at hv
        exact hknown.1 i v hin hv

variable {i : Nat}

/-- Calls come and go on; none reads the head, and none takes the lock while the loop runs. -/
theorem Inv.withCalls {calls : List WatchCall}
    (hreads : ∀ req callback pos, .headRead req callback pos ∈ calls →
      .headRead req callback pos ∈ st.calls)
    (hmu : ∀ n, st.notify = .looping n → st.muHeld = false → calls.any WatchCall.holdsMu = false) :
    Inv { st with calls := calls } := by
  refine ⟨h.store, h.watchers, fun req callback pos hmem => ?_, h.point_le, ?_⟩
  · exact h.reads req callback pos (hreads req callback pos hmem)
  · have hknown := h.headKnown
    change HeadKnown _ st.notify
    cases hn : st.notify with
    | published => trivial
    | idle =>
      rw [hn] at hknown
      exact ⟨hknown.1, fun req callback pos hmem =>
        hknown.2 req callback pos (hreads req callback pos hmem)⟩
    | looping n =>
      rw [hn] at hknown
      exact ⟨hknown.1, hmu n hn hknown.2⟩

/-- A call comes to a point at which it has not read the head. -/
theorem Inv.setCall {c : WatchCall} (hc : ∀ req callback pos, c ≠ .headRead req callback pos)
    (hmu : c.holdsMu = false ∨ ∀ n, st.notify ≠ .looping n) : (st.setCall i c).Inv := by
  refine h.withCalls (fun req callback pos hmem => ?_) fun n hn hold => ?_
  · rcases List.mem_or_eq_of_mem_set hmem with hmem | heq
    · exact hmem
    · exact absurd heq.symm (hc req callback pos)
  · have hfalse := hmu.resolve_right fun hall => hall n hn
    rw [muHeld, List.any_eq_false] at hold
    rw [List.any_eq_false]
    intro c' hc'
    rcases List.mem_or_eq_of_mem_set hc' with hc' | rfl
    · exact hold c' hc'
    · simp [hfalse]

/-- A commit publishes its records. -/
theorem Inv.commit {batch : List LogRecord} (hstep : st.commit batch = some st') : st'.Inv := by
  unfold WatchState.commit at hstep
  split at hstep
  · next store hn hcommit =>
    cases hstep
    obtain ⟨hlog, new, hhist, hnew, hle, hmem⟩ := h.store.commit hcommit
    have hpoint : point { st with store := store, notify := .published } = st.point := by
      rw [point, point, hmem]
    refine ⟨hlog, fun w hw => (h.watchers w hw).mono hle fun r hr => ?_, fun req callback pos hread => ?_,
      ?_, trivial⟩
    · show recordAt store.history r = _
      rw [hhist]
      exact recordAt_append hnew hr
    · rw [hpoint]
      obtain ⟨hlow, hhigh⟩ := h.reads req callback pos hread
      exact ⟨hlow, hhigh.trans hle⟩
    · rw [hpoint]
      show st.point ≤ store.mem.applied
      rw [hmem]
      exact h.point_le
  · cases hstep

theorem Inv.notifyStart (hstep : st.notifyStart = some st') : st'.Inv := by
  unfold WatchState.notifyStart at hstep
  split at hstep
  · split at hstep
    · cases hstep
    · next hmu =>
      cases hstep
      refine ⟨h.store, h.watchers, h.reads, h.point_le, ?_, Bool.eq_false_of_not_eq_true hmu⟩
      intro j w hj
      exact absurd hj (Nat.not_lt_zero j)
  · cases hstep

/-- While the loop runs, a watcher before it knows the head; at its end all do. -/
theorem Inv.notifyNext (hstep : st.notifyNext = some st') : st'.Inv := by
  have hknown := h.headKnown
  unfold WatchState.notifyNext at hstep
  split at hstep
  · next n hn =>
    rw [hn] at hknown
    split at hstep
    · next w hw =>
      cases hstep
      refine ⟨h.store, fun v hv => ?_, h.reads, h.point_le, fun j v hj hv => ?_, hknown.2⟩
      · rcases List.mem_or_eq_of_mem_set hv with hv | rfl
        · exact h.watchers v hv
        · exact (h.watchers w (List.mem_of_getElem? hw)).notify
      · by_cases hnj : n = j
        · subst hnj
          rw [WatchState.setWatcher,
            List.getElem?_set_self (List.getElem?_eq_some_iff.mp hw).1] at hv
          obtain rfl := Option.some.inj hv
          rfl
        · rw [WatchState.setWatcher, List.getElem?_set_ne hnj] at hv
          exact hknown.1 j v (by omega) hv
    · next hnone =>
      cases hstep
      refine ⟨h.store, h.watchers, h.reads, h.point_le, fun w hw => ?_, fun req callback pos hmem => ?_⟩
      · obtain ⟨j, hj, rfl⟩ := List.getElem_of_mem hw
        have hle := List.getElem?_eq_none_iff.mp hnone
        change j < st.watchers.length at hj
        exact hknown.1 j _ (by omega) (List.getElem?_eq_getElem hj)
      · -- No call has got past the lock.
        exact absurd hmem (not_mem_of_muHeld hknown.2)
  · cases hstep

theorem Inv.check (hstep : st.check i = some st') : st'.Inv := by
  unfold WatchState.check at hstep
  split at hstep
  · dsimp only at hstep
    split at hstep
    · cases hstep
      exact h.setCall nofun (Or.inl rfl)
    · cases hstep
      exact h.setCall nofun (Or.inl rfl)
  · cases hstep

theorem Inv.lock (hstep : st.lock i = some st') : st'.Inv := by
  unfold WatchState.lock at hstep
  split at hstep
  · split at hstep
    · cases hstep
    · next hfree =>
      split at hstep
      · cases hstep
        exact h.setCall nofun (Or.inl rfl)
      · cases hstep
        refine h.setCall nofun (Or.inr fun n hn => ?_)
        simp [hn, Notify.readsMu] at hfree
  · cases hstep

theorem Inv.readHead (hstep : st.readHead i = some st') : st'.Inv := by
  have hknown := h.headKnown
  unfold WatchState.readHead at hstep
  split at hstep
  · next req callback _ hn =>
    cases hstep
    rw [hn] at hknown
    have hreads : ∀ req' callback' pos, .headRead req' callback' pos ∈
        (st.setCall i (.headRead req callback st.store.log.lastRevision)).calls →
        pos = st.store.log.lastRevision := by
      intro req' callback' pos hmem
      rcases List.mem_or_eq_of_mem_set hmem with hmem | heq
      · exact hknown.2 req' callback' pos hmem
      · cases heq
        rfl
    refine ⟨h.store, h.watchers, fun req' callback' pos hmem => ?_, h.point_le, ?_⟩
    · rw [hreads req' callback' pos hmem]
      exact ⟨h.point_le.trans h.store.applied_le, le_rfl⟩
    · change HeadKnown _ st.notify
      rw [hn]
      exact ⟨hknown.1, hreads⟩
  · cases hstep

/-- The new watcher knows the head unless a commit is about to tell it. -/
theorem Inv.register (hstep : st.register i = some st') : st'.Inv := by
  unfold WatchState.register at hstep
  split at hstep
  · next req callback logPosition hcall =>
    cases hstep
    have hmem := List.mem_of_getElem? hcall
    have hrest : ∀ req' callback' pos, .headRead req' callback' pos ∈
        st.calls.set i (.registered st.watchers.length logPosition) →
        .headRead req' callback' pos ∈ st.calls := by
      intro req' callback' pos hin
      rcases List.mem_or_eq_of_mem_set hin with hin | heq
      · exact hin
      · cases heq
    refine ⟨h.store, fun w hw => ?_, fun req' callback' pos hin => ?_, h.point_le, ?_⟩
    · rcases List.mem_append.mp hw with hw | hw
      · exact h.watchers w hw
      · obtain rfl := List.mem_singleton.mp hw
        exact MemoryWatcher.Inv.new _ req callback (h.reads req callback logPosition hmem).2
    · exact h.reads req' callback' pos (hrest req' callback' pos hin)
    · have hknown := h.headKnown
      change HeadKnown _ st.notify
      cases hn : st.notify with
      | published => trivial
      | idle =>
        rw [hn] at hknown
        refine ⟨fun w hw => ?_, fun req' callback' pos hin =>
          hknown.2 req' callback' pos (hrest req' callback' pos hin)⟩
        rcases List.mem_append.mp hw with hw | hw
        · exact hknown.1 w hw
        · obtain rfl := List.mem_singleton.mp hw
          exact hknown.2 req callback logPosition hmem
      | looping n =>
        -- The loop and the call cannot both hold the lock.
        rw [hn] at hknown
        exact absurd hmem (not_mem_of_muHeld hknown.2)
  · cases hstep

theorem Inv.watch (req : WatchCreateRequest) (callback : Nat) :
    Inv { st with calls := st.calls ++ [.begin req callback] } := by
  refine h.withCalls (fun req' callback' pos hmem => ?_) fun n hn hold => ?_
  · rcases List.mem_append.mp hmem with hmem | hmem
    · exact hmem
    · cases List.mem_singleton.mp hmem
  · rw [List.any_append]
    exact Bool.or_eq_false_iff.mpr ⟨hold, rfl⟩

/-- `Compact` chooses its point while no call holds `watcherMu`. -/
theorem Inv.compact {revision : Nat} (hstep : st.compact revision = some st') : st'.Inv := by
  unfold WatchState.compact at hstep
  split at hstep
  · split at hstep
    · cases hstep
    · next hmu =>
      dsimp only at hstep
      split at hstep
      · cases hstep
        exact h
      · cases hstep
        refine h.withStore h.store rfl rfl (max_le h.store.compacted_le ?_)
          (Or.inr (Bool.eq_false_of_not_eq_true hmu))
        exact Store.compactThrough_le _ _ revision
  · cases hstep

/-- `Compact` sets the compacted revision to the point that it has chosen. -/
theorem Inv.compactIndex (hstep : st.compactIndex = some st') : st'.Inv := by
  obtain ⟨through, hpending, rfl⟩ := Option.map_eq_some_iff.mp hstep
  have hcompacted := st.store.mem.compacted_compact_le through
  have hlog := h.store.compact [] through
  refine h.withStore hlog rfl rfl (max_le hlog.compacted_le (Nat.zero_le _)) (Or.inl ?_)
  rw [point, hpending]
  exact max_le hcompacted (Nat.zero_le _)

end

/-- Every step keeps the invariant. -/
theorem Inv.step (st : WatchState) (a : Action) (st' : WatchState) (h : st.Inv)
    (hstep : st.step a = some st') : st'.Inv := by
  unfold WatchState.step at hstep
  split at hstep
  · cases hstep
  · cases a with
    | commit batch => exact h.commit hstep
    | notifyStart => exact h.notifyStart hstep
    | notifyNext => exact h.notifyNext hstep
    | rotate =>
      simp only [move] at hstep
      split at hstep
      · cases hstep
        obtain ⟨-, hlast, -⟩ := FilesystemLog.rotate_frame st.store.log
        exact h.withStore h.store.rotate rfl hlast h.point_le (Or.inl le_rfl)
      · cases hstep
    | touch revision =>
      cases hstep
      obtain ⟨cache, heq⟩ := FilesystemLog.getLogEntry_frame st.store.log revision
      exact h.withStore (h.store.touch revision) rfl (by simp [Store.touch, heq]) h.point_le
        (Or.inl le_rfl)
    | applyUpTo rev env fails =>
      simp only [move, applyUpTo] at hstep
      split at hstep
      · next hfree =>
        cases hstep
        obtain ⟨hlog, hcompacted⟩ := h.store.applyUpTo env fails rev
        refine h.withStore hlog rfl rfl ?_ (Or.inl ?_)
        · rw [hfree]
          exact max_le hlog.compacted_le (Nat.zero_le _)
        · rw [hcompacted]
          exact le_rfl
      · cases hstep
    | compact revision => exact h.compact hstep
    | compactIndex => exact h.compactIndex hstep
    | compactLog n =>
      simp only [move, compactLog] at hstep
      split at hstep
      · cases hstep
        obtain ⟨-, -, hlast, -⟩ := FilesystemLog.compact_frame h.store.files _ _
        exact h.withStore (h.store.compactLog _) rfl hlast h.point_le (Or.inl le_rfl)
      · cases hstep
    | watch req callback =>
      cases hstep
      exact h.watch req callback
    | check i => exact h.check hstep
    | lock i => exact h.lock hstep
    | readHead i => exact h.readHead hstep
    | register i => exact h.register hstep
    | startRun j =>
      obtain ⟨w, hw, hs⟩ := Option.bind_eq_some_iff.mp hstep
      obtain ⟨w', hw', rfl⟩ := Option.map_eq_some_iff.mp hs
      have hinv := (h.watchers w (List.mem_of_getElem? hw)).start hw'
      exact h.setWatcher hw hinv (MemoryWatcher.start_frame hw').logPosition
    | wake j =>
      obtain ⟨w, hw, hs⟩ := Option.bind_eq_some_iff.mp hstep
      obtain ⟨w', hw', rfl⟩ := Option.map_eq_some_iff.mp hs
      have hinv := (h.watchers w (List.mem_of_getElem? hw)).wake hw'
      exact h.setWatcher hw hinv (MemoryWatcher.wake_frame hw').logPosition
    | collectNext j fails =>
      obtain ⟨w, hw, hs⟩ := Option.bind_eq_some_iff.mp hstep
      obtain ⟨r, hr, rfl⟩ := Option.map_eq_some_iff.mp hs
      cases r with
      | none => exact ⟨h.store, h.watchers, h.reads, h.point_le, h.headKnown⟩
      | some w' =>
        have hinv := (h.watchers w (List.mem_of_getElem? hw)).collectNext h.store.ascending
          (fun r x => h.store.reader_mem) hr
        exact h.setWatcher hw hinv (MemoryWatcher.collectNext_frame hr).logPosition
    | respond j taken =>
      obtain ⟨w, hw, hs⟩ := Option.bind_eq_some_iff.mp hstep
      obtain ⟨⟨w', resp⟩, hr, rfl⟩ := Option.map_eq_some_iff.mp hs
      have hold := h.watchers w (List.mem_of_getElem? hw)
      exact h.setWatcher hw (hold.respond hr) (hold.respond_frame hr).logPosition
    | stop j =>
      obtain ⟨w, hw, hs⟩ := Option.bind_eq_some_iff.mp hstep
      obtain ⟨w', hw', rfl⟩ := Option.map_eq_some_iff.mp hs
      have hinv := (h.watchers w (List.mem_of_getElem? hw)).stop hw'
      exact h.setWatcher hw hinv (MemoryWatcher.stop_frame hw').logPosition
    | close j =>
      obtain ⟨w, hw, rfl⟩ := Option.map_eq_some_iff.mp hstep
      exact h.setWatcher hw (h.watchers w (List.mem_of_getElem? hw)).close rfl

end WatchState

/-! ## Exactly once -/

/-- What a watch promises. -/
structure MemoryWatcher.Exact (hist : LogHistory) (w : MemoryWatcher) : Prop where
  /-- The events passed on are those of the records from the start revision to `watchDoneRevision` that
  are for the watch, in order. -/
  events : w.sent.flatMap WatchResponse.events =
    between (w.req.eventsAt hist) w.behind w.watchDoneRevision
  /-- Each response carries the events up to the revision in its header, from the one before on. -/
  headers : ∃ chunks : List (Nat × List Event),
    w.sent = chunks.map (fun c => w.response c.1 c.2) ∧
    Delivered (w.req.eventsAt hist) w.behind chunks w.watchDoneRevision
  /-- A response that the callback refused was the next one, and the last. -/
  refused : ∀ resp, w.refused = some resp → w.run = .ended ∧ ∃ last, w.watchDoneRevision < last ∧
    resp = w.response last (between (w.req.eventsAt hist) w.watchDoneRevision last)

theorem MemoryWatcher.Inv.exact {hist : LogHistory} {head : Nat} {w : MemoryWatcher}
    (h : w.Inv hist head) : w.Exact hist where
  events := by
    obtain ⟨chunks, hsent, hdel⟩ := h.delivered
    rw [← hdel.items, hsent, List.flatMap_map]
    rfl
  headers := h.delivered
  refused resp hresp := by
    obtain ⟨hrun, last, hlt, -, heq⟩ := h.refused resp hresp
    exact ⟨hrun, last, hlt, heq⟩

/-- Watches deliver exactly once, in order, without gaps: in every run from the start of a process, what
the callback of each watcher took is exactly what the watch owes up to `watchDoneRevision`; and whenever
no commit is between publishing and notifying, every watcher knows the head. -/
theorem watch_exactly_once {env : LeaseEnv} {log : FilesystemLog} {s : Store} (hwf : log.WF)
    (hcache : log.cache.ll = []) (hstart : Store.start env log = .ok s)
    {actions : List WatchState.Action} {st : WatchState}
    (hrun : Transition.run WatchState.step (WatchState.start s) actions = some st) :
    (∀ w ∈ st.watchers, w.Exact st.store.history) ∧
    (st.notify = .idle → ∀ w ∈ st.watchers, w.logPosition = st.store.log.lastRevision) := by
  have hinv := Transition.run_invariant WatchState.Inv.step hrun
    (WatchState.Inv.start (Store.LogInv.start hwf hcache hstart))
  refine ⟨fun w hw => (hinv.watchers w hw).exact, fun hn => ?_⟩
  have hknown := hinv.headKnown
  rw [hn] at hknown
  exact hknown.1

namespace WatchState

/-- A `Watch` call that nothing interleaves with. -/
def watchAlone (i : Nat) (req : WatchCreateRequest) (callback : Nat) : List Action :=
  [.watch req callback, .check i, .lock i, .readHead i, .register i, .startRun i]

/-- A commit that tells its `n` watchers. -/
def commitAlone (n : Nat) (batch : List LogRecord) : List Action :=
  [.commit batch, .notifyStart] ++ List.replicate (n + 1) .notifyNext

/-- A record with one put of a one-byte key. -/
def putRecord (k : UInt8) (r : Nat) : LogRecord :=
  ⟨[⟨.put, { key := [k], createRevision := r, modRevision := r, version := 1 }, none⟩]⟩

/-- A watch of the keys from 1 on: two revisions are committed, the second between the wakeup and the
reads, then one that is not for the watch. -/
def followThree : List Action :=
  watchAlone 0 { key := [1], rangeEnd := [0], watchId := 7 } 0 ++
    commitAlone 1 [putRecord 1 2] ++ [.wake 0] ++ commitAlone 1 [putRecord 2 3] ++
    [.collectNext 0 false, .respond 0 true, .wake 0, .collectNext 0 false, .respond 0 true] ++
    commitAlone 1 [putRecord 0 4] ++ [.wake 0, .collectNext 0 false, .respond 0 true]

end WatchState

/-- Two responses, and the watcher has passed the third revision. -/
theorem watch_exactly_once_followThree : ∃ s st,
    Store.boot noLeases ⟨0, 0⟩ [] = some s ∧
    Transition.run WatchState.step (WatchState.start s) WatchState.followThree = some st ∧
    st.watchers.map (fun w => (w.watchDoneRevision, w.sent.map fun r => r.header.revision)) =
      [(4, [2, 3])] ∧
    (∀ w ∈ st.watchers, w.Exact st.store.history) ∧
    ∀ w ∈ st.watchers, w.logPosition = st.store.log.lastRevision := by
  obtain ⟨s, st, hboot, hst, hidle, hsent⟩ : ∃ s st, Store.boot noLeases ⟨0, 0⟩ [] = some s ∧
      Transition.run WatchState.step (WatchState.start s) WatchState.followThree = some st ∧
      st.notify = .idle ∧
      st.watchers.map (fun w => (w.watchDoneRevision, w.sent.map fun r => r.header.revision)) =
        [(4, [2, 3])] := by decide +kernel
  obtain ⟨log, hopen, hstart⟩ := Store.boot_eq_some hboot
  have hopened := (FilesystemLog.opened_of_empty hopen).1
  obtain ⟨hexact, hhead⟩ := watch_exactly_once hopened.files hopened.cache hstart hst
  exact ⟨s, st, hboot, hst, hsent, hexact, hhead hidle⟩

end CloudEtcd
