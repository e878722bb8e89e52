/-
# CloudEtcd.System.Metadata — the revisions, versions and previous values in committed events.

An event is staged with its snapshot plus one as its revision and with the value it found at the
snapshot as its previous value; `prepare` stamps it again.  Nothing writes the key between the snapshot
and the commit, so the value found is the one right below the commit (`Inv.seen_eq_below`), and the
test by which `prepare` recognises a created key, that both stamps are equal, is exact because no key
carries a creation revision above its own (`Dated`).

`Lineage` collects the logs that a server can meet, over any number of restarts.
-/
import CloudEtcd.System.Serializability

namespace CloudEtcd

open History MemoryStorage

/-- The metadata of an event committed at revision `r`: its previous value is the state of the key right
below, and its version and creation revision continue from there. -/
structure Chained (hist : LogHistory) (r : Nat) (e : Event) : Prop where
  modRevision : e.kv.modRevision = r
  prevKv : e.prevKv = stateAt hist (r - 1) e.kv.key
  put : e.type = .put →
    e.kv.version = e.prevKv.elim 1 (fun kv => kv.version + 1) ∧
    e.kv.createRevision = e.prevKv.elim (r : Int) KeyValue.createRevision
  delete : e.type = .delete → e.prevKv.isSome = true ∧ e.kv.version = 0

/-- No event has a creation revision above the revision of its record. -/
def Dated (hist : LogHistory) : Prop :=
  ∀ p ∈ hist, ∀ e ∈ p.2.events, e.kv.createRevision ≤ p.1

/-- The state of a key comes from a put at or below the point, the last event on the key there. -/
theorem exists_put_of_state {hist : LogHistory} (hw : WellFormed hist) {k : Bytes} {q : Nat}
    {kv : KeyValue} (hkv : stateAt hist q k = some kv) :
    ∃ p ∈ hist, p.1 ≤ q ∧ ∃ e ∈ p.2.events, e.type = .put ∧ e.kv = kv ∧ e.kv.key = k ∧
      ∀ p' ∈ hist, p.1 < p'.1 → p'.1 ≤ q → ∀ e' ∈ p'.2.events, e'.kv.key ≠ k := by
  cases hlast : lastEvent hist k q with
  | none => simp [stateAt, hlast, liveKv] at hkv
  | some p =>
    obtain ⟨r, e⟩ := p
    obtain ⟨⟨x, hx, hr, he, hk⟩, hmax⟩ := (lastEvent_eq_some_iff hw).mp hlast
    have hput : e.type = .put ∧ e.kv = kv := by
      rw [stateAt_of_last hlast] at hkv
      cases htype : e.type with
      | put => exact ⟨rfl, by simpa [liveKv, htype] using hkv⟩
      | delete => simp [liveKv, htype] at hkv
    refine ⟨(r, x), hx, hr, e, he, hput.1, hput.2, hk, fun p' hp' hlt hle e' he' hk' => ?_⟩
    exact absurd (hmax p'.1 hle ⟨p'.2, hp', e', he', hk'⟩) (not_le.mpr hlt)

/-- Stamping a put again is putting at the new revision, if the value it replaces was created at or
below the snapshot. -/
theorem restampEvent_putEvent {req : PutRequest} {s r : Nat} {prev : Option KeyValue}
    (hprev : ∀ kv, prev = some kv → kv.createRevision ≤ s) :
    restampEvent r (putEvent req (s + 1) prev) =
      putEvent req r prev := by
  cases prev with
  | none => simp [restampEvent, putEvent]
  | some kv =>
    have hne : ¬ kv.createRevision = (s : Int) + 1 := by
      have := hprev kv rfl
      omega
    simp [restampEvent, putEvent, hne]

theorem restampEvent_deleteEvent {req : DeleteRangeRequest} {s r : Nat} {old : Event} :
    restampEvent r (deleteEvent req s old) =
      deleteEvent req r old := rfl

namespace System

variable {base : LogHistory} {p0 : Nat} {sys : System}
variable {a : Nat × PendingTxn} {sub : Submission} {e : Event} {log : FilesystemLog}

/-! ## What a committed event found -/

/-- An event of a committed transaction, as it was staged. -/
theorem Inv.staged_of_committed (h : Inv base p0 sys) (hcom : Committed sys.submissions a sub)
    (he : e ∈ a.2.logRecord.events) :
    ∃ e', e = restampEvent a.1 e' ∧ e' ∈ sub.ev.txn.logEvents ∧
      MemoryStorage.StagedEvent sub.ev.store.mem sub.ev.store.log.read
        sub.ev.txn.snapshotTimestamp e' := by
  rw [hcom.logRecord] at he
  obtain ⟨e', he', rfl⟩ := List.mem_map.mp he
  have hev := h.submissions sub (List.mem_of_getElem? hcom.found)
  exact ⟨e', rfl, he', evaluate_events hev.evaluated e' he'⟩

/-- The value found by an event of a committed transaction is the state of its key right below. -/
theorem Inv.found_eq_below (h : Inv base p0 sys) (hbase : ∀ p ∈ base, p.1 ≤ p0)
    (ha : a ∈ sys.batcher.accepted) (hcom : Committed sys.submissions a sub)
    (he : e ∈ sub.ev.txn.logEvents) {prev : Option Event}
    (hprev : sub.ev.store.mem.prevEvent sub.ev.store.log.read e.kv.key
      sub.ev.txn.snapshotTimestamp = .ok prev) :
    liveKv prev = stateAt sys.store.history (a.1 - 1) e.kv.key := by
  have hev := h.submissions sub (List.mem_of_getElem? hcom.found)
  obtain ⟨event, hevent, hlive⟩ := (hev.then_inv h.store.wellFormed).coherent.prevEvent_eq hev.applied e.kv.key
  obtain rfl : event = prev := Except.ok.inj (hevent.symm.trans hprev)
  rw [hlive]
  apply h.seen_eq_below hbase ha hcom
  right
  rw [PendingTxn.Writes, hcom.txnMeta, (h.evaluated hcom.found).staged.writes]
  exact List.mem_map_of_mem he

/-- The value found lies at or below the snapshot. -/
theorem Inv.found_below (h : Inv base p0 sys) (hcom : Committed sys.submissions a sub) {k : Bytes}
    {prev : Option Event} {kv : KeyValue}
    (hprev : sub.ev.store.mem.prevEvent sub.ev.store.log.read k
      sub.ev.txn.snapshotTimestamp = .ok prev) (hkv : liveKv prev = some kv) :
    ∃ p ∈ sys.store.history, p.1 ≤ sub.ev.txn.snapshotTimestamp ∧
      ∃ e ∈ p.2.events, e.type = .put ∧ e.kv = kv := by
  have hev := h.submissions sub (List.mem_of_getElem? hcom.found)
  obtain ⟨event, hevent, hlive⟩ := (hev.then_inv h.store.wellFormed).coherent.prevEvent_eq hev.applied k
  obtain rfl : event = prev := Except.ok.inj (hevent.symm.trans hprev)
  rw [hlive] at hkv
  rcases seen_cases sub.ev.store.mem sub.ev.store.history
      sub.ev.txn.snapshotTimestamp k with hseen | hseen
  · obtain ⟨p, hp, hle, e, he, hput, heq, -⟩ :=
      exists_put_of_state (hev.then_inv h.store.wellFormed).wellFormed (hseen ▸ hkv)
    obtain ⟨new, hnew, -⟩ := hev.later.history
    exact ⟨p, hnew ▸ List.mem_append_left _ hp, hle, e, he, hput, heq⟩
  · rw [hseen] at hkv
    cases hkv

/-! ## Creation revisions -/

theorem Inv.dated (h : Inv base p0 sys) (hd : Dated base) : Dated sys.store.history := by
  -- By induction on the revision: a creation revision is new or that of an earlier record.
  suffices hall : ∀ r, ∀ p ∈ sys.store.history, p.1 = r → ∀ e ∈ p.2.events,
      e.kv.createRevision ≤ p.1 from fun p hp => hall p.1 p hp rfl
  intro r
  induction r using Nat.strong_induction_on with
  | _ r ih =>
    rintro p hp rfl e he
    rw [h.history] at hp
    rcases List.mem_append.mp hp with hp | hp
    · exact hd p hp e he
    · obtain ⟨a, ha, rfl⟩ := List.mem_map.mp hp
      obtain ⟨sub, hcom⟩ := h.accepted a ha
      have hev := h.submissions sub (List.mem_of_getElem? hcom.found)
      have hbelow : sub.ev.txn.snapshotTimestamp < a.1 :=
        (hev.applied.trans hev.then_held.applied_le).trans_lt hcom.after
      obtain ⟨e', rfl, -, hstaged⟩ := h.staged_of_committed hcom he
      cases hstaged with
      | put req prev hprev =>
        have hfound : ∀ kv, liveKv prev = some kv →
            kv.createRevision ≤ sub.ev.txn.snapshotTimestamp := by
          intro kv hkv
          obtain ⟨p, hp, hle, e, he, -, rfl⟩ := h.found_below hcom hprev hkv
          have hearlier := ih p.1 (hle.trans_lt hbelow) p hp rfl e he
          omega
        rw [restampEvent_putEvent hfound]
        cases hkv : liveKv prev with
        | none => exact le_rfl
        | some kv =>
          show kv.createRevision ≤ a.1
          have := hfound kv hkv
          omega
      | delete req old hold hput =>
        show (0 : Int) ≤ a.1
        omega

/-- Every event that the process committed carries on the chain of its key. -/
theorem Inv.chained (h : Inv base p0 sys) (hbase : ∀ p ∈ base, p.1 ≤ p0) (hd : Dated base)
    (ha : a ∈ sys.batcher.accepted) (he : e ∈ a.2.logRecord.events) : Chained sys.store.history a.1 e := by
  obtain ⟨sub, hcom⟩ := h.accepted a ha
  obtain ⟨e', rfl, he', hstaged⟩ := h.staged_of_committed hcom he
  cases hstaged with
  | put req prev hprev =>
    have hbelow := h.found_eq_below hbase ha hcom he' hprev
    rw [restampEvent_putEvent]
    · refine ⟨rfl, hbelow, fun _ => ⟨rfl, rfl⟩, fun htype => ?_⟩
      cases htype
    · intro kv hkv
      obtain ⟨p, hp, hle, e, he, -, rfl⟩ := h.found_below hcom hprev hkv
      have := h.dated hd p hp e he
      omega
  | delete req old hold hput =>
    have hbelow := h.found_eq_below hbase ha hcom he' hold
    have hold : liveKv (some old) = some old.kv := by
      simp [liveKv, hput]
    rw [restampEvent_deleteEvent]
    refine ⟨rfl, hold.symm.trans hbelow, fun htype => ?_, fun _ => ⟨rfl, rfl⟩⟩
    cases htype

/-! ## The logs of a server -/

/-- A log of a server that began on an empty directory and was restarted any number of times. -/
inductive Lineage : FilesystemLog → Prop
  | empty {opts : Options} {log : FilesystemLog}
      (hopen : FilesystemLog.openDir opts [] = .ok log) : Lineage log
  | restart {env : LeaseEnv} {opts : Options} {log log' : FilesystemLog} {sys₀ sys : System}
      (hlog : Lineage log) (hstart : start env log = .ok sys₀) (hreach : Reached sys₀ sys)
      (hopen : FilesystemLog.openDir opts sys.store.log.close = .ok log') : Lineage log'

theorem dated_start {env : LeaseEnv} (hd : Dated log.records) (hstart : start env log = .ok sys) :
    Dated sys.store.history := by
  rcases start_history hstart with heq | hempty
  · rwa [heq]
  · intro p hp e he
    rw [hempty p hp] at he
    cases he

/-- Every log of a server can be started on, and its creation revisions are in order. -/
theorem Lineage.opened (h : Lineage log) : log.Opened ∧ Dated log.records := by
  induction h with
  | empty hopen =>
    obtain ⟨hopened, hnil, -⟩ := FilesystemLog.opened_of_empty hopen
    refine ⟨hopened, fun p hp => ?_⟩
    rw [hnil] at hp
    cases hp
  | restart _ hstart hreach hopen ih =>
    obtain ⟨hopened, hd⟩ := ih
    obtain ⟨log', hopen', hopened', hrecords⟩ := hreach.reopens hopened hstart _
    obtain rfl := Except.ok.inj (hopen.symm.trans hopen')
    have hinv := hreach.inv hopened hstart
    refine ⟨hopened', fun p hp => ?_⟩
    rw [hrecords] at hp
    exact hinv.dated (dated_start hd hstart) p (hinv.store.recordsIn p hp)

end System

/-- MVCC metadata forms an exact chain: whatever the interleaving of transactions, batches and
compactions, every event that a process commits has the revision of its record, the state of its key
right below it as its previous value, and the version and creation revision that follow. -/
theorem metadata_chain {env : LeaseEnv} {log : FilesystemLog} {sys₀ sys : System}
    (hlog : System.Lineage log) (hstart : System.start env log = .ok sys₀)
    (hreach : System.Reached sys₀ sys) :
    ∀ p ∈ sys.store.history, p ∉ log.records → ∀ e ∈ p.2.events,
      Chained sys.store.history p.1 e := by
  obtain ⟨hopened, hd⟩ := hlog.opened
  have hinv := hreach.inv hopened hstart
  have hbase := (System.Inv.start hopened hstart).store.head
  intro p hp hnew e he
  rw [hinv.history] at hp
  rcases List.mem_append.mp hp with hp | hp
  · -- What the process started with is in its log, or has no events.
    rcases System.start_history hstart with heq | hempty
    · exact absurd (heq ▸ hp) hnew
    · rw [hempty p hp] at he
      cases he
  · obtain ⟨a, ha, rfl⟩ := List.mem_map.mp hp
    exact hinv.chained hbase (System.dated_start hd hstart) ha he

/-- A key is put, put again, deleted, compacted away and put once more. -/
def recreateCompacted : List System.Action :=
  System.callAlone 0 (putOne 1) ++ System.callAlone 1 (putOne 2) ++
    System.callAlone 2 { success := [.deleteRange { key := [1] }] } ++ [.compact 4] ++
    System.callAlone 3 (putOne 3)

/-- The versions and creation revisions along it, the previous values, and that they are a chain. -/
theorem metadata_chain_recreateCompacted : ∃ sys,
    System.runFresh noLeases ⟨0, 0⟩ recreateCompacted = some sys ∧
    (sys.store.history.flatMap fun p => p.2.events.map fun e =>
      (e.kv.createRevision, e.kv.version, e.prevKv.map KeyValue.modRevision)) =
        [(2, 1, none), (2, 2, some 2), (0, 0, some 3), (5, 1, none)] ∧
    ∀ p ∈ sys.store.history, ∀ e ∈ p.2.events, Chained sys.store.history p.1 e := by
  obtain ⟨sys, hsys, hvals⟩ : ∃ sys,
      System.runFresh noLeases ⟨0, 0⟩ recreateCompacted = some sys ∧
      (sys.store.history.flatMap fun p => p.2.events.map fun e =>
        (e.kv.createRevision, e.kv.version, e.prevKv.map KeyValue.modRevision)) =
          [(2, 1, none), (2, 2, some 2), (0, 0, some 3), (5, 1, none)] :=
    by decide +kernel
  obtain ⟨log, sys₀, hopen, -, hstart, hacts⟩ := System.runFresh_eq_some hsys
  have honce : ∀ a ∈ recreateCompacted, a.WritesOnce := by decide +kernel
  obtain ⟨-, hnil, -⟩ := FilesystemLog.opened_of_empty hopen
  refine ⟨sys, hsys, hvals, fun p hp => ?_⟩
  exact metadata_chain (.empty hopen) hstart ⟨_, honce, hacts⟩ p hp (by simp [hnil])

end CloudEtcd
