/-
# CloudEtcd.Watch.InternalKeys — which internal keys a client gets to see.

The keys of the process itself share the key space with those of its clients.  A watcher drops the events on
them one by one.  A `List` skips the internal keys of the index, but of the record behind an ordinary key it
takes every put, so an internal key that is put in the same transaction comes along.  Listings therefore hide
the internal keys exactly while no entry of an ordinary key leads to a record that puts an internal one
(`Store.Unmixed`), in particular as long as no such record was committed (`Held.unmixed`).
-/
import CloudEtcd.Storage.Restart
import CloudEtcd.Storage.Listing
import CloudEtcd.System.AnyRequests
import CloudEtcd.System.Agreement
import CloudEtcd.Watch.Steps

namespace CloudEtcd

open History MemoryStorage Transition

/-! ## Listings -/

/-- The record puts an internal key. -/
def LogRecord.PutsInternal (x : LogRecord) : Prop :=
  ∃ e ∈ x.events, e.type = .put ∧ isInternalKey e.kv.key = true

instance (x : LogRecord) : Decidable x.PutsInternal :=
  inferInstanceAs (Decidable (∃ e ∈ x.events, _))

namespace Store

/-- No `List`, of whatever range, with whatever limit and at whatever readable revision, returns an internal
key. -/
def ListsHide (s : Store) : Prop :=
  ∀ snapshot ≤ s.mem.applied, ∀ req resp, s.mem.list s.log.read snapshot req = .ok resp →
    ∀ kv ∈ resp.kvs, isInternalKey kv.key = false

/-- No entry of an ordinary key leads to a record that puts an internal key. -/
def Unmixed (s : Store) : Prop :=
  ∀ k, isInternalKey k = false → ∀ r ∈ s.mem.revisions.revisionsOf k,
    ∀ x, (r, x) ∈ s.log.records → ¬ x.PutsInternal

variable {s : Store}

/-- What a listing returns are puts of the records behind ordinary keys. -/
theorem Held.mem_list (h : s.Held) {snapshot : Nat} {req : RangeRequest} {resp : RangeResponse}
    (hlist : s.mem.list s.log.read snapshot req = .ok resp) {kv : KeyValue} (hkv : kv ∈ resp.kvs) :
    ∃ k r x e, isInternalKey k = false ∧ r ∈ s.mem.revisions.revisionsOf k ∧
      (r, x) ∈ s.log.records ∧ e ∈ x.events ∧ e.type = .put ∧ e.kv.key = kv.key := by
  cases hend : req.rangeEnd with
  | none => simp [list, hend] at hlist
  | some rangeEnd =>
    cases hat : s.mem.readAt snapshot req with
    | error e => simp [list, hend, hat, bind, Except.bind] at hlist
    | ok q =>
      rw [h.fetches.list_eq hend hat] at hlist
      cases hlist
      have hmem := mem_of_mem_page (mem_of_mem_collected hkv)
      obtain ⟨⟨k, slot⟩, hentry, hlisted⟩ := List.mem_flatMap.mp hmem
      have hslot := BPTree.mem_entries.mp hentry
      unfold listed at hlisted
      split at hlisted
      · next hin =>
        split at hlisted
        · simp at hlisted
        · next r hl =>
          have hr : r ∈ s.mem.revisions.revisionsOf k := by
            rw [BPTree.revisionsOf, hslot]
            exact Timeline.mem_of_latest hl
          obtain ⟨x, hx, hread⟩ := h.read hr
          rw [hread] at hlisted
          obtain ⟨e, he, rfl⟩ := List.mem_map.mp hlisted
          obtain ⟨hmem, htype⟩ := List.mem_filter.mp he
          exact ⟨k, r, x, e, hin.2, hr, hx, hmem, by simpa using htype,
            (viewKv_key req e.kv).symm⟩
      · simp at hlisted

/-- Every entry can be read at some readable revision. -/
theorem Held.latest_eq (h : s.Held) {k : Bytes} {r : Nat} (hr : r ∈ s.mem.revisions.revisionsOf k) :
    s.mem.revisions.getLatestRevisionByKey k (max r s.mem.compacted) = some r := by
  refine (Timeline.latest_eq_some_iff (h.index k).sorted).mpr ⟨hr, le_max_left _ _, fun y hy hle => ?_⟩
  rcases le_max_iff.mp hle with hle | hle
  · exact hle
  · -- At or below the point the key has one entry.
    rcases Nat.lt_or_ge s.mem.compacted r with hlt | hge
    · exact hle.trans hlt.le
    · exact (h.below hy hr hle hge).le

/-- The puts of a record behind an ordinary key are all listed. -/
theorem Held.exists_list (h : s.Held) {k : Bytes} (hk : isInternalKey k = false) {r : Nat}
    (hr : r ∈ s.mem.revisions.revisionsOf k) {x : LogRecord} (hx : (r, x) ∈ s.log.records) {e : Event}
    (he : e ∈ x.events) (htype : e.type = .put) :
    ∃ req resp, s.mem.list s.log.read s.mem.applied req = .ok resp ∧ e.kv ∈ resp.kvs := by
  have hpos := (h.files.record_bounds hx).1
  have happlied := (h.touched hr).1
  have hcompacted := h.compacted_le
  let req : RangeRequest :=
    { key := some k, rangeEnd := some [0], revision := (max r s.mem.compacted : Nat) }
  have hat : s.mem.readAt s.mem.applied req = .ok (max r s.mem.compacted) := by
    show (if 0 < ((max r s.mem.compacted : Nat) : Int) then _ else _) = _
    rw [if_pos (by omega), Int.toNat_natCast, checkReadRevision, if_neg (by omega),
      if_neg (by omega)]
    rfl
  have hend : req.rangeEnd = some [0] := rfl
  have hlist := h.fetches.list_eq hend hat
  have hlimit : req.limit ≤ 0 := le_rfl
  rw [page_eq_self (Or.inl hlimit)] at hlist
  refine ⟨req, _, hlist, List.mem_flatMap.mpr ?_⟩
  cases hslot : s.mem.revisions.slotOf k with
  | none => simp [BPTree.revisionsOf, hslot] at hr
  | some slot =>
    refine ⟨(k, slot), BPTree.mem_entries.mpr hslot, ?_⟩
    have hin : InRange (req.key.getD []) [0] k ∧ isInternalKey k = false :=
      ⟨⟨le_rfl, Or.inl rfl⟩, hk⟩
    have hl : Timeline.latest slot.revisions (max r s.mem.compacted) = some r := by
      have := h.latest_eq hr
      rwa [BPTree.getLatestRevisionByKey, BPTree.revisionsOf, hslot] at this
    obtain ⟨y, hy, hread⟩ := h.read hr
    obtain rfl := h.ascending.unique (h.recordsIn _ hx) (h.recordsIn _ hy)
    simp only [listed, if_pos hin, hl, hread]
    exact List.mem_map.mpr ⟨e, List.mem_filter.mpr ⟨he, by simpa using htype⟩, rfl⟩

/-- Listings hide the internal keys exactly if no entry of an ordinary key leads to one. -/
theorem Held.listsHide_iff (h : s.Held) : s.ListsHide ↔ s.Unmixed := by
  constructor
  · rintro hhide k hk r hr x hx ⟨e, he, htype, hint⟩
    obtain ⟨req, resp, hlist, hmem⟩ := h.exists_list hk hr hx he htype
    rw [hhide _ le_rfl req resp hlist e.kv hmem] at hint
    cases hint
  · intro hunmixed snapshot _ req resp hlist kv hkv
    obtain ⟨k, r, x, e, hk, hr, hx, he, htype, hkey⟩ := h.mem_list hlist hkv
    cases hint : isInternalKey kv.key with
    | false => rfl
    | true => exact absurd ⟨e, he, htype, hkey.symm ▸ hint⟩ (hunmixed k hk r hr x hx)

/-- As long as every record that puts an internal key has events on internal keys only, nothing is mixed. -/
theorem Held.unmixed (h : s.Held) (hpure : ∀ p ∈ s.history, p.2.PutsInternal →
    ∀ e ∈ p.2.events, isInternalKey e.kv.key = true) : s.Unmixed := by
  intro k hk r hr x hx hputs
  obtain ⟨-, y, hy, e, he, rfl⟩ := h.touched hr
  obtain rfl := h.ascending.unique (h.recordsIn _ hx) (h.recordsIn _ hy)
  have hint := hpure _ (h.recordsIn _ hx) hputs e he
  exact absurd (hint.symm.trans hk) (by simp)

end Store

/-! ## Watches -/

/-- No response that was passed to the callback has an event on an internal key. -/
def MemoryWatcher.Hides (w : MemoryWatcher) : Prop :=
  ∀ resp, resp ∈ w.sent ∨ w.refused = some resp → ∀ e ∈ resp.events, isInternalKey e.kv.key = false

theorem WatchCreateRequest.internal_of_mem_eventsAt {req : WatchCreateRequest} {hist : LogHistory}
    {r : Nat} {e : Event} (he : e ∈ req.eventsAt hist r) : isInternalKey e.kv.key = false := by
  obtain ⟨e', he', rfl⟩ := List.mem_map.mp he
  have hwants : req.Wants e' := by simpa using (List.mem_filter.mp he').2
  have hkey := hwants.1
  split <;> exact hkey

theorem MemoryWatcher.Exact.hides {hist : LogHistory} {w : MemoryWatcher} (h : w.Exact hist) :
    w.Hides := by
  have hbetween : ∀ a b e, e ∈ Cursor.between (w.req.eventsAt hist) a b →
      isInternalKey e.kv.key = false := by
    intro a b e he
    obtain ⟨r, -, hr⟩ := List.mem_flatMap.mp he
    exact WatchCreateRequest.internal_of_mem_eventsAt hr
  rintro resp (hsent | hrefused) e he
  · refine hbetween w.behind w.watchDoneRevision e ?_
    rw [← h.events]
    exact List.mem_flatMap.mpr ⟨resp, hsent, he⟩
  · obtain ⟨-, last, -, rfl⟩ := h.refused resp hrefused
    exact hbetween _ _ e he

namespace WatchState

variable {st st' : WatchState} {a : Action}

/-- The store of a process with watchers, whatever is committed. -/
structure Bare (st : WatchState) : Prop where
  store : st.store.Held
  jobs : ∀ through ∈ st.jobs, through ≤ st.store.mem.compacted

/-- A step that moves the store without a compaction. -/
theorem Bare.withStore (h : Bare st) (hheld : st'.store.Held)
    (hcompacted : st.store.mem.compacted ≤ st'.store.mem.compacted)
    (hjobs : ∀ through ∈ st'.jobs, through ∈ st.jobs ∨ through ≤ st'.store.mem.compacted) :
    Bare st' :=
  ⟨hheld, fun through hmem => (hjobs through hmem).elim
    (fun hmem => (h.jobs through hmem).trans hcompacted) id⟩

theorem Bare.compactIndex (h : Bare st) (hstep : st.compactIndex = some st') : Bare st' := by
  obtain ⟨point, -, rfl⟩ := Option.map_eq_some_iff.mp hstep
  have hlater := Store.Later.compact st.store [] point
  refine h.withStore (h.store.compact _ point) hlater.compacted fun through hmem =>
    (List.mem_append.mp hmem).imp_right fun hnew => ?_
  -- The new job compacts up to the new point.
  rcases Store.mem_compact_cases st.store.mem [] point with heq | ⟨t, -, -, heq⟩
  · simp [Store.compact, heq] at hnew
  · have ht : through = t := by simpa [Store.compact, heq] using hnew
    show through ≤ (st.store.mem.compact _ point).1.compacted
    rw [heq, ht]

theorem Bare.compactLog (h : Bare st) {n : Nat} (hstep : st.compactLog n = some st') : Bare st' := by
  unfold WatchState.compactLog at hstep
  split at hstep
  · next through _ _ hjob =>
    cases hstep
    refine h.withStore (h.store.compactLog (h.jobs through (List.mem_of_getElem? hjob))) le_rfl
      fun t ht => Or.inl (List.mem_of_mem_eraseIdx ht)
  · cases hstep

/-- Every step keeps the store in order. -/
theorem Bare.step (h : Bare st) (hstep : st.step a = some st') : Bare st' := by
  cases hstore : a.ofStore with
  | false =>
    obtain ⟨hsame, -, hjobs, -⟩ := store_of_step hstore hstep
    exact ⟨hsame.symm ▸ h.store, fun through hmem => hsame.symm ▸ h.jobs through (hjobs ▸ hmem)⟩
  | true =>
    unfold WatchState.step at hstep
    split at hstep
    · cases hstep
    · cases a with
      | commit batch =>
        simp only [move, commit] at hstep
        split at hstep
        · next store _ hcommit =>
          cases hstep
          exact h.withStore (h.store.commit hcommit)
            (Store.Later.commit h.store.files hcommit).compacted fun _ hmem => Or.inl hmem
        · cases hstep
      | rotate =>
        simp only [move] at hstep
        split at hstep <;> cases hstep
        exact h.withStore h.store.rotate le_rfl fun _ hmem => Or.inl hmem
      | touch revision =>
        cases hstep
        exact h.withStore (h.store.touch revision) le_rfl fun _ hmem => Or.inl hmem
      | applyUpTo rev env fails =>
        simp only [move, applyUpTo] at hstep
        split at hstep <;> cases hstep
        exact h.withStore (h.store.applyUpTo env fails rev)
          (Store.Later.applyUpTo h.store.compacted_le env fails rev).compacted
          fun _ hmem => Or.inl hmem
      | compact revision =>
        -- Only the point is chosen.
        simp only [move, compact] at hstep
        split at hstep
        · split at hstep
          · cases hstep
          · split at hstep <;> cases hstep <;> exact ⟨h.store, h.jobs⟩
        · cases hstep
      | compactIndex => exact h.compactIndex hstep
      | compactLog n => exact h.compactLog hstep
      | _ => cases hstore

theorem Bare.of_run {env : LeaseEnv} {log : FilesystemLog} {s : Store} (hwf : log.WF)
    (hcache : log.cache.ll = []) (hstart : Store.start env log = .ok s) {actions : List Action}
    (hrun : run WatchState.step (start s) actions = some st) : Bare st :=
  run_invariant (fun _ _ _ hs hstep => hs.step hstep) hrun
    ⟨Store.Held.start hwf hcache hstart, by simp [WatchState.start]⟩

end WatchState

/-! ## Internal keys -/

/-- In every state of every run, whatever is committed: listings return no internal key and no watcher was
sent an event on one, exactly if no entry of an ordinary key leads to a record that puts an internal key. -/
theorem internal_keys_hidden_iff {env : LeaseEnv} {log : FilesystemLog} {s : Store} (hwf : log.WF)
    (hcache : log.cache.ll = []) (hstart : Store.start env log = .ok s)
    {actions : List WatchState.Action} {st : WatchState}
    (hrun : Transition.run WatchState.step (WatchState.start s) actions = some st) :
    (st.store.ListsHide ∧ ∀ w ∈ st.watchers, w.Hides) ↔ st.store.Unmixed := by
  have hbare := WatchState.Bare.of_run hwf hcache hstart hrun
  have hinv := run_invariant WatchState.Inv.step hrun
    (WatchState.Inv.start (Store.LogInv.start hwf hcache hstart))
  rw [hbare.store.listsHide_iff]
  exact and_iff_left fun w hw => (hinv.watchers w hw).exact.hides

/-- The same for listings while transactions, applies and background log compactions interleave. -/
theorem lists_hide_iff {env : LeaseEnv} {log : FilesystemLog} {sys₀ sys : System}
    {actions : List System.Action} (hwf : log.WF) (hcache : log.cache.ll = [])
    (hstart : System.start env log = .ok sys₀) (hrun : run System.step sys₀ actions = some sys) :
    sys.store.ListsHide ↔ sys.store.Unmixed :=
  (System.Bare.of_run hwf hcache hstart hrun).held.listsHide_iff

/-- An internal key. -/
def internalOne : Bytes := internalPrefix ++ [1]

/-- A client puts the internal key in a transaction of its own. -/
theorem lists_hide_putInternal : ∃ sys, System.runFresh noLeases ⟨0, 0⟩
    (System.callAlone 0 { success := [.put { key := internalOne }] }) = some sys ∧
    sys.store.mem.applied = 2 ∧ sys.store.ListsHide := by
  obtain ⟨sys, hsys, happlied, hpure⟩ : ∃ sys, System.runFresh noLeases ⟨0, 0⟩
      (System.callAlone 0 { success := [.put { key := internalOne }] }) = some sys ∧
      sys.store.mem.applied = 2 ∧ ∀ p ∈ sys.store.history, p.2.PutsInternal →
        ∀ e ∈ p.2.events, isInternalKey e.kv.key = true := by
    decide +kernel
  obtain ⟨log, sys₀, -, hlog, hstart, hrun⟩ := System.runFresh_eq_some hsys
  have hheld := (System.Bare.of_run hlog.files hlog.cache hstart hrun).held
  exact ⟨sys, hsys, happlied,
    (lists_hide_iff hlog.files hlog.cache hstart hrun).mpr (hheld.unmixed hpure)⟩

/-- A transaction that puts an internal key and key 1. -/
def putMixed : TxnRequest := { success := [.put { key := internalOne }, .put { key := [1] }] }

/-- After a client has put an internal key together with key 1, a listing from key 1 on returns both. -/
theorem list_shows_internal : ∃ sys,
    System.runFresh noLeases ⟨0, 0⟩ (System.callAlone 0 putMixed) = some sys ∧
    (sys.store.mem.list sys.store.log.read 2 { key := some [1], rangeEnd := some [0] }).toOption.map
      (fun resp => resp.kvs.map (·.key)) = some [internalOne, [1]] ∧
    isInternalKey internalOne = true ∧ ¬ sys.store.ListsHide := by
  obtain ⟨sys, hsys, hlist, happlied⟩ :
      ∃ sys, System.runFresh noLeases ⟨0, 0⟩ (System.callAlone 0 putMixed) = some sys ∧
        (sys.store.mem.list sys.store.log.read 2
          { key := some [1], rangeEnd := some [0] }).toOption.map (fun resp => resp.kvs.map (·.key)) =
            some [internalOne, [1]] ∧ sys.store.mem.applied = 2 := by
    decide +kernel
  refine ⟨sys, hsys, hlist, by decide, fun hhide => ?_⟩
  obtain ⟨resp, hresp, hkeys⟩ := Option.map_eq_some_iff.mp hlist
  have hmem : internalOne ∈ resp.kvs.map (·.key) := by simp [hkeys]
  obtain ⟨kv, hkv, hkey⟩ := List.mem_map.mp hmem
  have hfalse := hhide 2 happlied.ge _ resp (toOption_eq_some.mp hresp) kv hkv
  rw [hkey] at hfalse
  exact absurd hfalse (by decide)

namespace WatchState

/-- A record with one put of an internal key. -/
def putInternal (r : Nat) : LogRecord :=
  ⟨[⟨.put, { key := internalOne, createRevision := r, modRevision := r, version := 1 }, none⟩]⟩

/-- A watch of all keys, a put of an internal key and a put of key 1, both applied and passed on. -/
def watchAllKeys : List Action :=
  watchAlone 0 { key := [0], rangeEnd := [0], watchId := 7 } 0 ++
    commitAlone 1 [putInternal 2] ++ commitAlone 1 [putRecord 1 3] ++
    [.applyUpTo 3 noLeases fun _ => false, .wake 0, .collectNext 0 false, .collectNext 0 false,
      .respond 0 true]

end WatchState

/-- Records of their own are hidden from listings and watches. -/
theorem internal_keys_hidden_watchAllKeys : ∃ s st,
    Store.boot noLeases ⟨0, 0⟩ [] = some s ∧
    Transition.run WatchState.step (WatchState.start s) WatchState.watchAllKeys = some st ∧
    st.store.mem.applied = 3 ∧
    st.watchers.flatMap (fun w => w.sent.flatMap fun r => r.events.map (·.kv.key)) = [[1]] ∧
    st.store.ListsHide ∧ ∀ w ∈ st.watchers, w.Hides := by
  obtain ⟨s, st, hboot, hst, happlied, hsent, hpure⟩ : ∃ s st,
      Store.boot noLeases ⟨0, 0⟩ [] = some s ∧
      run WatchState.step (WatchState.start s) WatchState.watchAllKeys = some st ∧
      st.store.mem.applied = 3 ∧
      st.watchers.flatMap (fun w => w.sent.flatMap fun r => r.events.map (·.kv.key)) = [[1]] ∧
      ∀ p ∈ st.store.history, p.2.PutsInternal → ∀ e ∈ p.2.events, isInternalKey e.kv.key = true :=
    by decide +kernel
  obtain ⟨log, hopen, hstart⟩ := Store.boot_eq_some hboot
  have hlog := (FilesystemLog.opened_of_empty hopen).1
  have hheld := (WatchState.Bare.of_run hlog.files hlog.cache hstart hst).store
  exact ⟨s, st, hboot, hst, happlied, hsent,
    (internal_keys_hidden_iff hlog.files hlog.cache hstart hst).mpr (hheld.unmixed hpure)⟩

end CloudEtcd
