/-
# CloudEtcd.System.Deletes — what a delete of one key does in every reachable state.

`txn.delete` looks its key up in the index.  A key without an entry is reported as not deleted, and a
key whose entry is a put is deleted; an entry that is a delete ends the process.  So a delete does
what it should exactly when it finds the key's state and, unless there is nothing to find, a put
(`Tracks.deletesRightly_iff`).

No other operation of a transaction ends the process (`Fetches.evaluateOp_fatal`), and a delete does so
exactly if it finds a delete (`Fetches.evaluate_fatal_iff`).
-/
import CloudEtcd.Storage.Evaluation
import CloudEtcd.System.Agreement

namespace CloudEtcd

open History MemoryStorage

/-! ## One delete -/

/-- The event that a delete of a key should stage at a snapshot, if any, and what it should report. -/
def deleteOutcome (hist : LogHistory) (s : Nat) (k : Bytes) : Option Event × DeleteRangeResponse :=
  match stateAt hist s k with
  | none => (none, { header := some (createHeader s), deleted := 0 })
  | some kv =>
    (some
      { type := .delete
        kv := { key := k, modRevision := (s + 1 : Nat), version := 0 }
        prevKv := some kv },
      { deleted := 1 })

/-- The delete of a key at the snapshot of `t` stages and reports what it should. -/
def DeletesRightly (hist : LogHistory) (m : MemoryStorage) (log : LogReader) (t : Txn)
    (req : DeleteRangeRequest) : Prop :=
  let outcome := deleteOutcome hist t.snapshotTimestamp req.key
  m.delete log t req = .ok (outcome.1.elim t t.stage, outcome.2)

/-- A lookup of the key at the snapshot leads to its state, and the key's last write there is not a
delete that the index still has. -/
structure Deletable (hist : LogHistory) (m : MemoryStorage) (s : Nat) (k : Bytes) : Prop extends
    m.Readable hist s k where
  noTombstone : ∀ r e, m.revisions.getLatestRevisionByKey k s = some r →
    lastEvent hist k s = some (r, e) → e.type = .put

variable {t : Txn}

section Tracks

variable {hist : LogHistory} {m : MemoryStorage} {log : LogReader}

/-- A delete of a single key does what it should exactly if the key is deletable. -/
theorem Tracks.deletesRightly_iff (h : Tracks hist m log) {req : DeleteRangeRequest}
    (hq : t.snapshotTimestamp ≤ m.applied) (hend : req.rangeEnd = none) :
    DeletesRightly hist m log t req ↔ Deletable hist m t.snapshotTimestamp req.key := by
  obtain ⟨event, hprev⟩ := h.fetches.prevEvent req.key t.snapshotTimestamp
  have hread := h.prevEvent_iff hq hprev
  unfold prevEvent at hprev
  unfold DeletesRightly delete deleteOutcome
  rw [if_neg (by simp [hend])]
  cases hl : m.revisions.getLatestRevisionByKey req.key t.snapshotTimestamp with
  | none =>
    -- Nothing is deleted, which is right if there is nothing to delete.
    rw [hl] at hprev
    cases hprev
    have hiff : Deletable hist m t.snapshotTimestamp req.key ↔
        none = stateAt hist t.snapshotTimestamp req.key := by
      refine ⟨fun hd => hread.mpr hd.toReadable, fun hnone => ⟨hread.mp hnone, fun r e hr => ?_⟩⟩
      rw [hl] at hr
      cases hr
    rw [hiff]
    cases stateAt hist t.snapshotTimestamp req.key <;> simp
  | some r =>
    obtain ⟨x, e, -, hlog, hon, hlast⟩ := h.record_of_latest hq hl
    obtain ⟨y, first, hlog', hfind⟩ := h.fetches.record hl
    obtain rfl : x = y := Except.ok.inj (hlog.symm.trans hlog')
    have hfetch : fetchEvent log req.key r = .ok first := by
      simp [fetchEvent, hlog, hfind]
    simp only [hl, hfetch, Except.map, Except.ok.injEq] at hprev
    subst hprev
    have hiff : Deletable hist m t.snapshotTimestamp req.key ↔
        first.type = .put ∧ stateAt hist t.snapshotTimestamp req.key = some first.kv := by
      constructor
      · intro hd
        have hput := hd.noTombstone r e hl hlast
        have hlive := hread.mpr hd.toReadable
        rw [stateAt_of_last hlast] at hlive ⊢
        cases htype : first.type <;> simp_all [liveKv]
      · rintro ⟨hput, hstate⟩
        refine ⟨hread.mp (by simp [liveKv, hput, hstate]), fun r' e' hr' hlast' => ?_⟩
        rw [stateAt_of_last hlast'] at hstate
        cases htype : e'.type with
        | put => rfl
        | delete => simp [liveKv, htype] at hstate
    rw [hiff]
    simp only [hfetch, bind, Except.bind]
    -- The first event of the record is deleted if it is a put; a delete ends the process.
    cases htype : first.type with
    | put =>
      cases hstate : stateAt hist t.snapshotTimestamp req.key with
      | none => simp [pure, Except.pure]
      | some kv => simp [Txn.stage, deleteEvent, pure, Except.pure, eq_comm]
    | delete =>
      refine iff_of_false (fun heq => ?_) fun hd => ?_
      · cases heq
      · cases hd.1

end Tracks

/-! ## The other operations -/

variable {op : RequestOp}

namespace MemoryStorage

variable {m : MemoryStorage} {log : LogReader}

theorem readAt_ne_fatal (snapshot : Nat) (req : RangeRequest) :
    m.readAt snapshot req ≠ .error .fatal := by
  unfold readAt checkReadRevision
  split
  · split
    · exact fun h => nomatch h
    · split <;> exact fun h => nomatch h
  · exact fun h => nomatch h

theorem Fetches.put_ne_fatal (h : m.Fetches log) (t : Txn) (req : PutRequest) :
    m.put log t req ≠ .error .fatal := by
  unfold put
  split
  · exact fun heq => nomatch heq
  · obtain ⟨event, hprev⟩ := h.prevEvent req.key t.snapshotTimestamp
    rw [hprev]
    exact fun heq => nomatch heq

theorem Fetches.get_ne_fatal (h : m.Fetches log) (s : Nat) (req : RangeRequest) :
    m.get log s req ≠ .error .fatal := by
  unfold get
  split
  · exact fun heq => nomatch heq
  · next k _ =>
    split
    · exact fun heq => nomatch heq
    · intro hfatal
      rcases bind_eq_error.mp hfatal with hat | ⟨q, -, hkey⟩
      · exact readAt_ne_fatal s req hat
      · split at hkey
        · cases hkey
        · obtain ⟨resp, hresp⟩ := h.getKey req k q
          rw [hresp] at hkey
          cases hkey

theorem list_ne_fatal (s : Nat) (req : RangeRequest) : m.list log s req ≠ .error .fatal := by
  unfold list
  split
  · exact fun heq => nomatch heq
  · intro hfatal
    rcases bind_eq_error.mp hfatal with hat | ⟨q, -, hlist⟩
    · exact readAt_ne_fatal s req hat
    · dsimp only at hlist
      split at hlist <;> cases hlist

/-- The key has an entry at the snapshot, and it is a delete. -/
def FindsDelete (m : MemoryStorage) (log : LogReader) (s : Nat) (k : Bytes) : Prop :=
  ∃ e, m.prevEvent log k s = .ok (some e) ∧ e.type = .delete

/-- A delete ends the process exactly if it finds a delete. -/
theorem Fetches.delete_fatal_iff (h : m.Fetches log) (t : Txn) (req : DeleteRangeRequest) :
    m.delete log t req = .error .fatal ↔
      req.rangeEnd = none ∧ m.FindsDelete log t.snapshotTimestamp req.key := by
  unfold MemoryStorage.delete FindsDelete MemoryStorage.prevEvent
  cases hend : req.rangeEnd with
  | some e => simp
  | none =>
    cases hl : m.revisions.getLatestRevisionByKey req.key t.snapshotTimestamp with
    | none => simp
    | some r =>
      obtain ⟨x, e, hread, hfind⟩ := h.record hl
      have hfetch : fetchEvent log req.key r = .ok e := by simp [fetchEvent, hread, hfind]
      cases htype : e.type <;> simp [hfetch, htype, Except.map, bind, Except.bind, pure,
        Except.pure]

/-- Only a delete ends the process. -/
theorem Fetches.evaluateOp_fatal (h : m.Fetches log)
    (hfatal : m.evaluateOp log t op = .error .fatal) :
    ∃ req, op = .deleteRange req ∧ req.rangeEnd = none ∧
      m.FindsDelete log t.snapshotTimestamp req.key := by
  cases op with
  | put req =>
    rcases bind_eq_error.mp hfatal with hput | ⟨r, -, heq⟩
    · exact absurd hput (h.put_ne_fatal t req)
    · cases heq
  | deleteRange req =>
    rcases bind_eq_error.mp hfatal with hdel | ⟨r, -, heq⟩
    · exact ⟨req, rfl, (h.delete_fatal_iff t req).mp hdel⟩
    · cases heq
  | range req =>
    rw [evaluateOp] at hfatal
    split at hfatal
    · rcases bind_eq_error.mp hfatal with hget | ⟨r, -, heq⟩
      · exact absurd hget (h.get_ne_fatal t.snapshotTimestamp req)
      · cases heq
    · rcases bind_eq_error.mp hfatal with hlist | ⟨r, -, heq⟩
      · exact absurd hlist (list_ne_fatal _ req)
      · cases heq
  | other => cases hfatal

/-- The compares never end the process. -/
theorem Fetches.evaluateCompares_ne_fatal (h : m.Fetches log) (s : Nat) (txnMeta : TxnMeta)
    (failed : Bool) (conds : List Compare) :
    m.evaluateCompares log s txnMeta failed conds ≠ .error .fatal := by
  have hcompare : ∀ cond kv, compareKv cond kv ≠ .error .fatal := by
    intro cond kv
    unfold compareKv
    repeat' split
    all_goals exact fun heq => nomatch heq
  induction conds generalizing txnMeta failed with
  | nil => exact fun heq => nomatch heq
  | cons cond conds ih =>
    intro hfatal
    rcases bind_eq_error.mp hfatal with hone | ⟨b, -, hrest⟩
    · obtain ⟨event, hprev⟩ := h.prevEvent cond.key s
      rw [evaluateCompare, hprev] at hone
      exact hcompare _ _ hone
    · exact ih _ _ hrest

end MemoryStorage

/-! ## The deletes of a transaction -/

variable {ops : List RequestOp}

namespace MemoryStorage

variable {m : MemoryStorage} {log : LogReader}
variable {t t' : Txn} {responses responses' : List ResponseOp}

/-- The evaluation of a transaction at a snapshot comes to this delete, with `t` staged so far. -/
def ReachesDelete (m : MemoryStorage) (log : LogReader) (req : TxnRequest) (s : Nat) (t : Txn)
    (dreq : DeleteRangeRequest) : Prop :=
  ∃ txnMeta failed pre post responses,
    m.evaluateCompares log s (TxnMeta.new s) false req.compare = .ok (txnMeta, failed) ∧
    req.branch (!failed) = pre ++ .deleteRange dreq :: post ∧
    m.evaluateOps log ⟨s, [], txnMeta⟩ [] pre = .ok (t, responses)

/-- The loop over the operations stops at the first that fails. -/
theorem evaluateOps_eq_error {e : TxnError} (h : m.evaluateOps log t responses ops = .error e) :
    ∃ pre op post t' responses', ops = pre ++ op :: post ∧
      m.evaluateOps log t responses pre = .ok (t', responses') ∧
      m.evaluateOp log t' op = .error e := by
  induction ops generalizing t responses with
  | nil => cases h
  | cons op ops ih =>
    rcases bind_eq_error.mp h with hop | ⟨⟨t1, resp⟩, hop, hrest⟩
    · exact ⟨[], op, ops, t, responses, rfl, rfl, hop⟩
    · obtain ⟨pre, op', post, t', responses', rfl, hpre, herr⟩ := ih hrest
      refine ⟨op :: pre, op', post, t', responses', rfl, ?_, herr⟩
      exact bind_eq_ok.mpr ⟨(t1, resp), hop, hpre⟩

theorem evaluateOps_of_error {pre post : List RequestOp} {e : TxnError}
    (hpre : m.evaluateOps log t responses pre = .ok (t', responses'))
    (herr : m.evaluateOp log t' op = .error e) :
    m.evaluateOps log t responses (pre ++ op :: post) = .error e := by
  induction pre generalizing t responses with
  | nil =>
    cases hpre
    exact bind_eq_error.mpr (Or.inl herr)
  | cons first pre ih =>
    obtain ⟨⟨t1, resp⟩, hfirst, hrest⟩ := bind_eq_ok.mp hpre
    exact bind_eq_error.mpr (Or.inr ⟨(t1, resp), hfirst, ih hrest⟩)

/-- The loop over the operations goes through each of them, and answers them in order. -/
theorem evaluateOps_eq_ok {pre post : List RequestOp}
    (h : m.evaluateOps log t responses (pre ++ op :: post) = .ok (t', responses')) :
    ∃ t1 r1 t2 resp, m.evaluateOps log t responses pre = .ok (t1, r1) ∧
      r1.length = responses.length + pre.length ∧ m.evaluateOp log t1 op = .ok (t2, resp) ∧
      m.evaluateOps log t2 (r1 ++ [resp]) post = .ok (t', responses') := by
  induction pre generalizing t responses with
  | nil =>
    obtain ⟨⟨t2, resp⟩, hop, hrest⟩ := bind_eq_ok.mp h
    exact ⟨t, responses, t2, resp, rfl, rfl, hop, hrest⟩
  | cons first pre ih =>
    obtain ⟨⟨t0, r0⟩, hfirst, hrest⟩ := bind_eq_ok.mp h
    obtain ⟨t1, r1, t2, resp, hpre, hlen, hop, hpost⟩ := ih hrest
    refine ⟨t1, r1, t2, resp, bind_eq_ok.mpr ⟨(t0, r0), hfirst, hpre⟩, ?_, hop, hpost⟩
    rw [hlen, List.length_append, List.length_singleton, List.length_cons]
    omega

/-- The answers that the loop has given stay. -/
theorem evaluateOps_responses
    (h : m.evaluateOps log t responses ops = .ok (t', responses')) : responses <+: responses' := by
  induction ops generalizing t responses with
  | nil =>
    cases h
    exact List.prefix_refl _
  | cons op ops ih =>
    obtain ⟨⟨t1, resp⟩, -, hrest⟩ := bind_eq_ok.mp h
    exact (List.prefix_append _ _).trans (ih hrest)

end MemoryStorage

/-- Every delete of a single key that the evaluation comes to stages and reports what it should, the
evaluation does not end the process, and if it succeeds, the events and the response say so. -/
structure DeletesExactly (hist : LogHistory) (m : MemoryStorage) (log : LogReader)
    (req : TxnRequest) (s : Nat) : Prop where
  notFatal : m.evaluate log req s ≠ .error .fatal
  each : ∀ t dreq, m.ReachesDelete log req s t dreq → dreq.rangeEnd = none →
    DeletesRightly hist m log t dreq
  reported : ∀ resp t, m.evaluate log req s = .ok (resp, t) → ∀ pre dreq post,
    req.branch resp.succeeded = pre ++ .deleteRange dreq :: post →
      resp.responses[pre.length]? = some (.deleteRange (deleteOutcome hist s dreq.key).2) ∧
      (t.logEvents.filter fun e => e.kv.key = dreq.key) =
        (deleteOutcome hist s dreq.key).1.toList

section Transactions

variable {hist : LogHistory} {m : MemoryStorage} {log : LogReader} {req : TxnRequest} {s : Nat}
variable {dreq : DeleteRangeRequest}

/-- A delete is reached at the snapshot of the transaction. -/
theorem MemoryStorage.ReachesDelete.snapshot
    (h : m.ReachesDelete log req s t dreq) : t.snapshotTimestamp = s := by
  obtain ⟨txnMeta, failed, pre, post, responses, hcomp, -, hops⟩ := h
  exact (evaluateOps_spec (staged_evaluateCompares hcomp)
    hops).1.snapshot

/-- A transaction ends the process exactly if it comes to a delete that finds a delete. -/
theorem MemoryStorage.Fetches.evaluate_fatal_iff (h : m.Fetches log) :
    m.evaluate log req s = .error .fatal ↔
      ∃ t dreq, m.ReachesDelete log req s t dreq ∧ dreq.rangeEnd = none ∧
        m.FindsDelete log s dreq.key := by
  constructor
  · intro hfatal
    rcases bind_eq_error.mp hfatal with hcomp | ⟨⟨txnMeta, failed⟩, hcomp, hrest⟩
    · exact absurd hcomp (h.evaluateCompares_ne_fatal s _ _ _)
    · rcases bind_eq_error.mp hrest with hops | ⟨r, -, heq⟩
      · obtain ⟨pre, op, post, t, responses, hbranch, hpre, herr⟩ :=
          evaluateOps_eq_error hops
        obtain ⟨dreq, rfl, hend, hfinds⟩ := h.evaluateOp_fatal herr
        have hbranch' : req.branch (!failed) = pre ++ .deleteRange dreq :: post := by
          rw [← hbranch]
          cases failed <;> rfl
        have hreaches : m.ReachesDelete log req s t dreq :=
          ⟨txnMeta, failed, pre, post, responses, hcomp, hbranch', hpre⟩
        exact ⟨t, dreq, hreaches, hend, hreaches.snapshot ▸ hfinds⟩
      · cases heq
  · rintro ⟨t, dreq, hreaches, hend, hfinds⟩
    have hsnap := hreaches.snapshot
    obtain ⟨txnMeta, failed, pre, post, responses, hcomp, hbranch, hpre⟩ := hreaches
    have hdel : m.delete log t dreq = .error .fatal :=
      (h.delete_fatal_iff t dreq).mpr ⟨hend, hsnap.symm ▸ hfinds⟩
    have hop : m.evaluateOp log t (.deleteRange dreq) = .error .fatal :=
      bind_eq_error.mpr (Or.inl hdel)
    refine bind_eq_error.mpr (Or.inr ⟨(txnMeta, failed), hcomp, ?_⟩)
    refine bind_eq_error.mpr (Or.inl ?_)
    have hops : (if failed = true then req.failure else req.success) =
        pre ++ .deleteRange dreq :: post := by
      rw [← hbranch]
      cases failed <;> rfl
    rw [hops]
    exact evaluateOps_of_error hpre hop

/-- If every delete that is reached does what it should, the process does not end. -/
theorem Tracks.evaluate_ne_fatal (h : Tracks hist m log)
    (heach : ∀ t dreq, m.ReachesDelete log req s t dreq → dreq.rangeEnd = none →
      DeletesRightly hist m log t dreq) : m.evaluate log req s ≠ .error .fatal := by
  intro hfatal
  obtain ⟨t, dreq, hreaches, hend, hfinds⟩ := h.fetches.evaluate_fatal_iff.mp hfatal
  have hright := heach t dreq hreaches hend
  rw [DeletesRightly, (h.fetches.delete_fatal_iff t dreq).mpr
    ⟨hend, hreaches.snapshot.symm ▸ hfinds⟩] at hright
  cases hright

/-- The events on a key, when the operations before and after are on other keys. -/
theorem filter_key_of_notMem {events : List Event} {k : Bytes}
    (hsub : (events.map (·.kv.key)).Sublist (writeKeys ops)) (hk : k ∉ writeKeys ops) :
    (events.filter fun e => e.kv.key = k) = [] := by
  rw [List.filter_eq_nil_iff]
  intro e he heq
  have hkey : e.kv.key = k := by simpa using heq
  exact hk (hkey ▸ hsub.subset (List.mem_map_of_mem he))

/-- What a transaction that went through has staged and reported for one of its deletes. -/
theorem evaluate_reports (honce : req.WritesOnce)
    (heach : ∀ t dreq, m.ReachesDelete log req s t dreq → dreq.rangeEnd = none →
      DeletesRightly hist m log t dreq) {resp : TxnResponse}
    (heval : m.evaluate log req s = .ok (resp, t)) {pre post : List RequestOp}
    (hbranch : req.branch resp.succeeded = pre ++ .deleteRange dreq :: post) :
    resp.responses[pre.length]? = some (.deleteRange (deleteOutcome hist s dreq.key).2) ∧
    (t.logEvents.filter fun e => e.kv.key = dreq.key) =
      (deleteOutcome hist s dreq.key).1.toList := by
  obtain ⟨txnMeta, hcomp, hops, -⟩ := evaluate_eq_ok heval
  have hnodup : (writeKeys (pre ++ .deleteRange dreq :: post)).Nodup := by
    rw [← hbranch]
    cases resp.succeeded
    · exact honce.2
    · exact honce.1
  rw [hbranch] at hops
  obtain ⟨t1, r1, t2, rop, hpre, hlen, hop, hpost⟩ := evaluateOps_eq_ok hops
  have hstart := staged_evaluateCompares hcomp
  obtain ⟨hst1, -, ⟨new1, hnew1, hsub1, -⟩, -⟩ := evaluateOps_spec hstart hpre
  obtain ⟨-, -, ⟨new2, hnew2, hsub2, -⟩, -⟩ :=
    evaluateOps_spec (hst1.evaluateOp hop) hpost
  -- The delete itself.
  have hright : DeletesRightly hist m log t1 dreq := by
    apply heach t1 dreq ⟨txnMeta, _, pre, post, r1, hcomp, by rwa [Bool.not_not], hpre⟩
    cases hend : dreq.rangeEnd with
    | none => rfl
    | some e =>
      simp [evaluateOp, delete, hend, bind, Except.bind] at hop
  rw [DeletesRightly, hst1.snapshot] at hright
  obtain ⟨⟨t3, dresp⟩, hdel, hrest⟩ := bind_eq_ok.mp hop
  rw [hright] at hdel
  cases hdel
  cases hrest
  -- The keys before and after are others.
  have hkeys : writeKeys (pre ++ .deleteRange dreq :: post) =
      writeKeys pre ++ dreq.key :: writeKeys post := by
    simp [writeKeys, RequestOp.writeKey]
  rw [hkeys] at hnodup
  obtain ⟨-, hcons, hdisj⟩ := List.nodup_append'.mp hnodup
  have hnot1 : dreq.key ∉ writeKeys pre := fun hk => hdisj hk List.mem_cons_self
  have hnot2 : dreq.key ∉ writeKeys post := (List.nodup_cons.mp hcons).1
  constructor
  · have hprefix := evaluateOps_responses hpost
    obtain ⟨rest, hresp⟩ := hprefix
    rw [← hresp]
    simp [hlen]
  · rw [hnew2, List.filter_append, filter_key_of_notMem hsub2 hnot2, List.append_nil]
    cases hout : (deleteOutcome hist s dreq.key).1 with
    | none =>
      simp only [Option.elim_none, Option.toList_none]
      rw [hnew1, List.nil_append]
      exact filter_key_of_notMem hsub1 hnot1
    | some e =>
      have hkey : e.kv.key = dreq.key := by
        unfold deleteOutcome at hout
        split at hout <;> cases hout
        rfl
      simp only [Option.elim_some, Txn.stage, Option.toList_some]
      rw [hnew1, List.nil_append, List.filter_append, filter_key_of_notMem hsub1 hnot1]
      simp [hkey]

end Transactions

/-- In every reachable state and at every applied snapshot: a transaction's deletes of single keys are
exact, and its evaluation does not end the process, exactly if every delete that it comes to is of a
key that is deletable at the snapshot. -/
theorem deletes_exact_iff {env : LeaseEnv} {log : FilesystemLog} {sys₀ sys : System}
    {actions : List System.Action} (hwf : log.WF) (hcache : log.cache.ll = [])
    (hstart : System.start env log = .ok sys₀)
    (hrun : Transition.run System.step sys₀ actions = some sys) {req : TxnRequest} {s : Nat}
    (honce : req.WritesOnce) (hs : s ≤ sys.store.mem.applied) :
    DeletesExactly sys.store.history sys.store.mem sys.store.log.read req s ↔
      ∀ t dreq, sys.store.mem.ReachesDelete sys.store.log.read req s t dreq →
        dreq.rangeEnd = none → Deletable sys.store.history sys.store.mem s dreq.key := by
  have htracks := (System.Bare.of_run hwf hcache hstart hrun).held.tracks
  have hiff : ∀ t dreq, sys.store.mem.ReachesDelete sys.store.log.read req s t dreq →
      dreq.rangeEnd = none →
      (DeletesRightly sys.store.history sys.store.mem sys.store.log.read t dreq ↔
        Deletable sys.store.history sys.store.mem s dreq.key) := by
    intro t dreq hreaches hend
    rw [htracks.deletesRightly_iff (hreaches.snapshot.symm ▸ hs) hend, hreaches.snapshot]
  constructor
  · intro hexact t dreq hreaches hend
    exact (hiff t dreq hreaches hend).mp (hexact.each t dreq hreaches hend)
  · intro hdeletable
    have heach : ∀ t dreq, sys.store.mem.ReachesDelete sys.store.log.read req s t dreq →
        dreq.rangeEnd = none →
        DeletesRightly sys.store.history sys.store.mem sys.store.log.read t dreq :=
      fun t dreq hreaches hend =>
        (hiff t dreq hreaches hend).mpr (hdeletable t dreq hreaches hend)
    exact ⟨htracks.evaluate_ne_fatal heach, heach, fun resp t heval pre dreq post hbranch =>
      evaluate_reports honce heach heval hbranch⟩

/-- The deletes of the one-byte keys 1 and 2. -/
def deleteOneAndTwo : TxnRequest :=
  { success := [.deleteRange { key := [1] }, .deleteRange { key := [2] }] }

/-- With key 1 there and key 2 never written, both deletes are exact. -/
theorem deletes_exact_putOne : ∃ sys,
    System.runFresh noLeases ⟨0, 0⟩ (System.callAlone 0 (putOne 1)) = some sys ∧
    DeletesExactly sys.store.history sys.store.mem sys.store.log.read deleteOneAndTwo 2 := by
  obtain ⟨sys, hsys, happlied, hcompacted, hone, htwo, hback⟩ :
      ∃ sys, System.runFresh noLeases ⟨0, 0⟩ (System.callAlone 0 (putOne 1)) = some sys ∧
        sys.store.mem.applied = 2 ∧ sys.store.mem.compacted = 0 ∧
        (lastEvent sys.store.history [1] 2).map (fun p => p.2.type) = some .put ∧
        sys.store.mem.revisions.getLatestRevisionByKey [2] 2 = none ∧
        ∀ p ∈ sys.store.history, ∀ k ∈ [[1], [2]], ReadsBack p.2 k := by
    decide +kernel
  obtain ⟨log, sys₀, -, hlog, hstart, hrun⟩ := System.runFresh_eq_some hsys
  refine ⟨sys, hsys, ?_⟩
  refine (deletes_exact_iff hlog.files hlog.cache hstart hrun ⟨by decide, by decide⟩
    happlied.ge).mpr ?_
  rintro t dreq ⟨-, failed, pre, post, -, -, hbranch, -⟩ -
  have hkey : dreq.key = [1] ∨ dreq.key = [2] := by
    have hmem : RequestOp.deleteRange dreq ∈ deleteOneAndTwo.branch (!failed) := by
      rw [hbranch]
      simp
    cases failed
    · rcases List.mem_cons.mp hmem with heq | hmem
      · cases heq
        exact Or.inl rfl
      · cases List.mem_singleton.mp hmem
        exact Or.inr rfl
    · cases hmem
  -- Nothing is compacted, so only the deletes that the index has matter.
  refine ⟨⟨?_, fun p hp _ _ => hback p hp _ (by simpa using hkey)⟩, fun r e hr hlast => ?_⟩
  · rintro ⟨-, w, hgt, hle, -⟩
    omega
  · rcases hkey with hkey | hkey
    · rw [hkey] at hlast
      simpa [hlast] using hone
    · rw [hkey, htwo] at hr
      cases hr

/-- Key 1 is put and deleted, and a second delete of it is about to be evaluated. -/
def deleteTwice : List System.Action :=
  System.callAlone 0 (putOne 1) ++
    System.callAlone 1 { success := [.deleteRange { key := [1] }] } ++
    [.request { success := [.deleteRange { key := [1] }] }, .readHead 2,
      .apply 2 noLeases fun _ => false]

/-- The key does not exist, and its second delete ends the process. -/
theorem delete_of_deleted_is_fatal : ∃ sys, System.runFresh noLeases ⟨0, 0⟩ deleteTwice = some sys ∧
    stateAt sys.store.history 3 [1] = none ∧
    sys.store.mem.evaluate sys.store.log.read { success := [.deleteRange { key := [1] }] } 3 =
      .error .fatal ∧
    ∃ sys', sys.step (.evaluate 2) = some sys' ∧ sys'.halted = true := by
  decide +kernel

end CloudEtcd
