/-
# CloudEtcd.Watch.Compaction — when a compaction cuts off a watch.

`Compact` lowers its point to what every open watcher has delivered, so it never overtakes a registered
watcher.  It does not see a `Watch` call between its check of the compacted revision and its registration:
these are under different locks, and the check is not made again.  Nor does a `Watch` call see a `Compact`
that has chosen its point and not yet set the compacted revision.  A run keeps every open watcher at or above
the compacted revision (`Uncut`) if at each registration the start revision is still above the compacted
revision and above the point that a `Compact` in progress has chosen (`RegistersAbove`).
-/
import CloudEtcd.Watch.Steps

namespace CloudEtcd

open MemoryWatcher WatchState

/-- `Compact` goes no further than an open watcher has. -/
theorem MemoryStorage.compactThrough_le_delivered (m : MemoryStorage)
    {watchers : List MemoryStorage.WatcherView} (revision : Nat) {w : MemoryStorage.WatcherView}
    (hw : w ∈ watchers) (hopen : w.closed = false) :
    m.compactThrough watchers revision ≤ w.delivered := by
  obtain ⟨pre, post, rfl⟩ := List.append_of_mem hw
  rw [MemoryStorage.compactThrough, List.foldl_append, List.foldl_cons, hopen]
  exact (Store.foldl_delivered_le _ _).trans (min_le_right _ _)

namespace WatchState

variable {st st' : WatchState} {a : Action}

/-- Every open watcher has delivered up to the compacted revision. -/
def Uncut (st : WatchState) : Prop :=
  ∀ w ∈ st.watchers, w.closed = false → st.store.mem.compacted ≤ w.watchDoneRevision

/-- If the step registers a watcher, its start revision is above the compacted revision and above the point
that a `Compact` in progress has chosen, or it has none. -/
def RegistersAbove (st : WatchState) : Action → Prop
  | .register i =>
    match st.calls[i]? with
    | some (.headRead req _ _) => req.start = 0 ∨
        st.store.mem.compacted < req.start ∧ ∀ through ∈ st.compacting, through < req.start
    | _ => True
  | _ => True

instance decidableRegistersAbove (st : WatchState) (a : Action) : Decidable (st.RegistersAbove a) := by
  unfold RegistersAbove
  split
  · split <;> infer_instance
  · infer_instance

/-! ## One step -/

/-- What a registration does. -/
theorem register_spec {i : Nat} (hstep : st.register i = some st') :
    ∃ req callback pos, st.calls[i]? = some (.headRead req callback pos) ∧
      st'.watchers = st.watchers ++ [new req callback pos] ∧ st'.point = st.point := by
  unfold register at hstep
  split at hstep
  · next req callback pos hcall =>
    cases hstep
    exact ⟨req, callback, pos, hcall, rfl, rfl⟩
  · cases hstep

/-- A `Compact` that has chosen its point is not beyond an open watcher. -/
theorem compact_spec {revision : Nat} (hstep : st.compact revision = some st') :
    st'.watchers = st.watchers ∧ st'.store = st.store ∧
      ∀ w ∈ st.watchers, w.closed = false → st'.point ≤ max st.point w.watchDoneRevision := by
  unfold compact at hstep
  split at hstep
  · split at hstep
    · cases hstep
    · dsimp only at hstep
      split at hstep
      · cases hstep
        exact ⟨rfl, rfl, fun w _ _ => le_max_left _ _⟩
      · cases hstep
        refine ⟨rfl, rfl, fun w hw hopen => ?_⟩
        have hle := st.store.mem.compactThrough_le_delivered revision (w := w.view)
          (List.mem_map_of_mem hw) hopen
        exact max_le (le_max_of_le_left (le_max_left _ _)) (le_max_of_le_right hle)
  · cases hstep

/-- Only a `Compact` that chooses its point raises it, and the compacted revision never decreases. -/
theorem point_step (h : st.Inv) (hstep : st.step a = some st') :
    ((∀ revision, a ≠ .compact revision) → st'.point ≤ st.point) ∧
      st.store.mem.compacted ≤ st'.store.mem.compacted ∧
      ((∀ i, a ≠ .register i) → st'.watchers.length = st.watchers.length) := by
  cases hstore : a.ofStore with
  | false =>
    obtain ⟨hsame, hcompacting, -, hlength⟩ := store_of_step hstore hstep
    refine ⟨fun _ => ?_, (congrArg (·.mem.compacted) hsame).ge, hlength⟩
    rw [point, point, hsame, hcompacting]
  | true =>
    unfold step at hstep
    split at hstep
    · cases hstep
    · cases a with
      | commit batch =>
        simp only [move, commit] at hstep
        split at hstep
        · next store _ hcommit =>
          cases hstep
          obtain ⟨-, _, -, -, -, hmem⟩ := h.store.commit hcommit
          refine ⟨fun _ => ?_, (congrArg (·.compacted) hmem).ge, fun _ => rfl⟩
          exact (congrArg (fun mem => max mem.compacted (st.compacting.getD 0)) hmem).le
        · cases hstep
      | rotate =>
        simp only [move] at hstep
        split at hstep <;> cases hstep
        exact ⟨fun _ => le_rfl, le_rfl, fun _ => rfl⟩
      | touch revision =>
        cases hstep
        exact ⟨fun _ => le_rfl, le_rfl, fun _ => rfl⟩
      | applyUpTo rev env fails =>
        simp only [move, applyUpTo] at hstep
        split at hstep <;> cases hstep
        have hcompacted := (h.store.applyUpTo env fails rev).2
        refine ⟨fun _ => ?_, hcompacted.ge, fun _ => rfl⟩
        exact (congrArg (fun n => max n (st.compacting.getD 0)) hcompacted).le
      | compact revision =>
        obtain ⟨hwatchers, hsame, -⟩ := compact_spec hstep
        exact ⟨fun hne => absurd rfl (hne revision), (congrArg (·.mem.compacted) hsame).ge,
          fun _ => congrArg List.length hwatchers⟩
      | compactIndex =>
        obtain ⟨through, hpending, rfl⟩ := Option.map_eq_some_iff.mp hstep
        refine ⟨fun _ => ?_, (Store.Later.compact st.store [] through).compacted, fun _ => rfl⟩
        rw [point, point, hpending]
        exact max_le (st.store.mem.compacted_compact_le through) (Nat.zero_le _)
      | compactLog n =>
        simp only [move, compactLog] at hstep
        split at hstep <;> cases hstep
        exact ⟨fun _ => le_rfl, le_rfl, fun _ => rfl⟩
      | _ => cases hstore

/-- The open watchers are not behind the compacted revision, nor behind a point that is chosen. -/
structure UncutInv (st : WatchState) : Prop where
  inv : st.Inv
  above : ∀ w ∈ st.watchers, w.closed = false → st.point ≤ w.watchDoneRevision

theorem UncutInv.uncut (h : st.UncutInv) : st.Uncut :=
  fun w hw hopen => (le_max_left _ _).trans (h.above w hw hopen)

/-- A new watcher starts above the point, if it has a start revision; otherwise at the head it has read. -/
theorem UncutInv.register (h : st.UncutInv) {i : Nat} (hc : st.RegistersAbove (.register i))
    (hstep : st.register i = some st') {w : MemoryWatcher} (hw : w ∈ st'.watchers)
    (hopen : w.closed = false) : st'.point ≤ w.watchDoneRevision := by
  obtain ⟨req, callback, pos, hcall, hwatchers, hpoint⟩ := register_spec hstep
  rw [hpoint]
  rw [hwatchers] at hw
  rcases List.mem_append.mp hw with hw | hw
  · exact h.above w hw hopen
  · obtain rfl := List.mem_singleton.mp hw
    have hread := (h.inv.reads req callback pos (List.mem_of_getElem? hcall)).1
    simp only [RegistersAbove, hcall] at hc
    show st.point ≤ if req.start = 0 then pos else req.start - 1
    split
    · exact hread
    · next hne =>
      obtain ⟨hcompacted, hpending⟩ := hc.resolve_left hne
      refine max_le (by omega) ?_
      cases hp : st.compacting with
      | none => exact Nat.zero_le _
      | some through =>
        have hlt := hpending through hp
        show through ≤ req.start - 1
        omega

theorem UncutInv.step (st : WatchState) (a : Action) (st' : WatchState) (h : st.UncutInv)
    (hc : st.RegistersAbove a) (hstep : st.step a = some st') : st'.UncutInv := by
  refine ⟨Inv.step st a st' h.inv hstep, fun w' hw' hopen => ?_⟩
  by_cases hreg : ∃ i, a = .register i
  · obtain ⟨i, rfl⟩ := hreg
    unfold WatchState.step at hstep
    split at hstep
    · cases hstep
    · exact h.register hc hstep hw' hopen
  · -- The watchers are those that there were, and each has moved on.
    obtain ⟨hpoint, -, hlength⟩ := point_step h.inv hstep
    obtain ⟨j, hj⟩ := List.getElem?_of_mem hw'
    have hlt : j < st.watchers.length := by
      rw [← hlength fun i heq => hreg ⟨i, heq⟩]
      exact (List.getElem?_eq_some_iff.mp hj).1
    have hw := List.getElem?_eq_getElem hlt
    obtain ⟨v, hv, honward, -⟩ := onward_step h.inv hstep j _ hw
    obtain rfl := Option.some.inj (hj.symm.trans hv)
    have hold := h.above _ (List.getElem_mem hlt) (honward.closed hopen)
    by_cases hcompact : ∃ revision, a = .compact revision
    · obtain ⟨revision, rfl⟩ := hcompact
      unfold WatchState.step at hstep
      split at hstep
      · cases hstep
      · obtain ⟨-, -, hle⟩ := compact_spec hstep
        have hmax := hle _ (List.getElem_mem hlt) (honward.closed hopen)
        rw [max_eq_right hold] at hmax
        exact hmax.trans honward.advances
    · exact (hpoint fun revision heq => hcompact ⟨revision, heq⟩).trans (hold.trans honward.advances)

end WatchState

/-- In every run whose registrations all start above the compacted revision and above the point of a `Compact`
in progress, or have no start revision, all open watchers stay at or above the compacted revision; and in
every run the compacted revision never decreases. -/
theorem compaction_spares_watches {env : LeaseEnv} {log : FilesystemLog} {s : Store}
    (hwf : log.WF) (hcache : log.cache.ll = []) (hstart : Store.start env log = .ok s)
    (actions : List WatchState.Action) :
    (Transition.Each WatchState.step WatchState.RegistersAbove (WatchState.start s) actions →
      Transition.Always WatchState.step WatchState.Uncut (WatchState.start s) actions) ∧
    Transition.Each WatchState.step (fun st a => ∀ st', st.step a = some st' →
      st.store.mem.compacted ≤ st'.store.mem.compacted) (WatchState.start s) actions := by
  have hinv := WatchState.Inv.start (Store.LogInv.start hwf hcache hstart)
  constructor
  · intro heach before t hpre ht
    have huncut : (WatchState.start s).UncutInv := ⟨hinv, List.forall_mem_nil _⟩
    exact (Transition.run_invariant_each UncutInv.step ht (heach.mono hpre) huncut).uncut
  · intro before a t _ ht st' hs
    exact (point_step (Transition.run_invariant WatchState.Inv.step ht hinv) hs).2.1

namespace WatchState

/-- A key is put at 2 and at 3; a watch from 4 on and a compaction at 3, one after the other. -/
def watchThenCompact : List Action :=
  commitAlone 0 [putRecord 1 2] ++ commitAlone 0 [putRecord 1 3] ++
    [.applyUpTo 3 noLeases fun _ => false] ++
    watchAlone 0 { key := [1], startRevision := 4, watchId := 7 } 0 ++ [.compact 3, .compactIndex]

/-- The same with a watch from 2 on, which registers between the two parts of the compaction.  Then the log
is compacted and the watcher runs. -/
def compactDuringWatch : List Action :=
  commitAlone 0 [putRecord 1 2] ++ commitAlone 0 [putRecord 1 3] ++
    [.applyUpTo 3 noLeases fun _ => false] ++
    [.watch { key := [1], startRevision := 2, watchId := 7 } 0, .check 0, .compact 3, .lock 0,
      .readHead 0, .register 0, .compactIndex, .startRun 0, .rotate, .compactLog 0, .wake 0,
      .collectNext 0 false]

end WatchState

/-- The compaction goes up to 3, and in no state on the way it was beyond the watcher. -/
theorem compaction_spares_watches_watchThenCompact : ∃ s st,
    Store.boot noLeases ⟨0, 0⟩ [] = some s ∧
    Transition.run WatchState.step (WatchState.start s) WatchState.watchThenCompact = some st ∧
    st.store.mem.compacted = 3 ∧ st.watchers.map MemoryWatcher.watchDoneRevision = [3] ∧
    Transition.Always WatchState.step WatchState.Uncut (WatchState.start s)
      WatchState.watchThenCompact := by
  obtain ⟨s, st, hboot, hst, heach, hcompacted, hdone⟩ : ∃ s st,
      Store.boot noLeases ⟨0, 0⟩ [] = some s ∧
      Transition.run step (start s) watchThenCompact = some st ∧
      Transition.Each step WatchState.RegistersAbove (start s)
        watchThenCompact ∧
      st.store.mem.compacted = 3 ∧ st.watchers.map watchDoneRevision = [3] :=
    by decide +kernel
  obtain ⟨log, hopen, hstart⟩ := Store.boot_eq_some hboot
  have hopened := (FilesystemLog.opened_of_empty hopen).1
  refine ⟨s, st, hboot, hst, hcompacted, hdone, ?_⟩
  exact (compaction_spares_watches hopened.files hopened.cache hstart _).1 heach

/-- A registered watcher that is not closed and still needs revision 2, while everything up to 3 is
compacted.  Its first read fails and ends `Run`. -/
theorem compaction_cuts_off_watch : ∃ s st,
    Store.boot noLeases ⟨1, 0⟩ [] = some s ∧
    Transition.run WatchState.step (WatchState.start s) WatchState.compactDuringWatch = some st ∧
    st.store.mem.compacted = 3 ∧
    st.watchers.map (fun w => (w.closed, w.watchDoneRevision, w.run.isEnded)) =
      [(false, 1, true)] :=
  by decide +kernel

end CloudEtcd
