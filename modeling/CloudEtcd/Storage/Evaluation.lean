/-
# CloudEtcd.Storage.Evaluation — the outcome of `evaluate`, whatever the state.

`OpEffect` says once what an operation can do to the staged transaction: stage one event and mark its
key as written, record a read, note a range read, or (a delete of a key that is not
indexed) nothing.  `Staged` is what these steps keep, `StagedEvent` says what an event is made of, and
`evaluate_spec` collects what holds of a transaction that `evaluate` has staged.
-/
import CloudEtcd.Storage.SnapshotReads

namespace CloudEtcd

/-- The key that an operation may write. -/
def RequestOp.writeKey : RequestOp → Option Bytes
  | .put req => some req.key
  | .deleteRange req => some req.key
  | _ => none

/-- The keys that the operations may write. -/
def writeKeys (ops : List RequestOp) : List Bytes := ops.filterMap RequestOp.writeKey

/-- Neither branch writes one key twice. -/
def TxnRequest.WritesOnce (req : TxnRequest) : Prop :=
  (writeKeys req.success).Nodup ∧ (writeKeys req.failure).Nodup

/-- The operations of a branch. -/
def TxnRequest.branch (req : TxnRequest) (succeeded : Bool) : List RequestOp :=
  if succeeded then req.success else req.failure

namespace MemoryStorage

variable {m : MemoryStorage} {log : LogReader}
variable {t t' : Txn} {op : RequestOp} {resp : ResponseOp} {txnMeta : TxnMeta} {s : Nat}

/-! ## One operation -/

/-- What one operation can do to the staged transaction. -/
inductive OpEffect (m : MemoryStorage) (log : LogReader) (t : Txn) : RequestOp → Txn → Prop
  | put (req : PutRequest) (prev : Option Event)
      (hprev : m.prevEvent log req.key t.snapshotTimestamp = .ok prev) :
      OpEffect m log t (.put req) (t.stage (putEvent req (t.snapshotTimestamp + 1) (liveKv prev)))
  | delete (req : DeleteRangeRequest) (old : Event) {r : Nat}
      (hindexed : m.revisions.getLatestRevisionByKey req.key t.snapshotTimestamp = some r)
      (hold : m.prevEvent log req.key t.snapshotTimestamp = .ok (some old)) (hput : old.type = .put) :
      OpEffect m log t (.deleteRange req) (t.stage (deleteEvent req (t.snapshotTimestamp + 1) old))
  | absent (req : DeleteRangeRequest)
      (hnone : m.revisions.getLatestRevisionByKey req.key t.snapshotTimestamp = none) :
      OpEffect m log t (.deleteRange req) t
  | get (req : RangeRequest) (hend : req.rangeEnd = none) : OpEffect m log t (.range req)
      (t.addRead (req.key.getD []) (m.readRevision (req.key.getD []) t.snapshotTimestamp))
  | list (req : RangeRequest) {e : Bytes} (hend : req.rangeEnd = some e) :
      OpEffect m log t (.range req) t.addList

theorem evaluateOp_effect (h : m.evaluateOp log t op = .ok (t', resp)) : OpEffect m log t op t' := by
  cases op with
  | put req =>
    obtain ⟨⟨t1, r1⟩, hput, hrest⟩ := bind_eq_ok.mp h
    cases hrest
    unfold put at hput
    split at hput
    · cases hput
    · obtain ⟨prev, hprev, hrest⟩ := bind_eq_ok.mp hput
      cases hrest
      exact .put req prev hprev
  | deleteRange req =>
    obtain ⟨⟨t1, r1⟩, hdel, hrest⟩ := bind_eq_ok.mp h
    cases hrest
    unfold delete at hdel
    split at hdel
    · cases hdel
    · split at hdel
      · next hnone =>
        cases hdel
        exact .absent req hnone
      · next r hindexed =>
        obtain ⟨old, hfetch, hrest⟩ := bind_eq_ok.mp hdel
        split at hrest
        · cases hrest
        · next hput =>
          cases hrest
          exact .delete req old hindexed (by simp [prevEvent, hindexed, hfetch, Except.map]) hput
  | range req =>
    rw [evaluateOp] at h
    split at h
    · next hend =>
      obtain ⟨r1, -, hrest⟩ := bind_eq_ok.mp h
      cases hrest
      exact .get req hend
    · next e hend =>
      obtain ⟨r1, -, hrest⟩ := bind_eq_ok.mp h
      cases hrest
      exact .list req hend
  | other => cases h

/-! ## What the operations keep -/

/-- A transaction staged at snapshot `s`: its reads are recorded with the revisions the index gives,
and its write set is the keys of its events. -/
structure Staged (m : MemoryStorage) (s : Nat) (t : Txn) : Prop where
  snapshot : t.snapshotTimestamp = s
  metaSnapshot : t.txnMeta.snapshotRevision = s
  reads : ∀ k v, t.txnMeta.readSet.lookup k = some v → v = m.readRevision k s
  writes : ∀ k, k ∈ t.txnMeta.writeSet.keys ↔ k ∈ t.logEvents.map (·.kv.key)
  marked : ∀ k b, t.txnMeta.writeSet.lookup k = some b → b = true

/-- The reads of a footprint with one more read. -/
theorem lookup_addRead {key k : Bytes} {rev v : Nat}
    (h : (txnMeta.addRead key rev).readSet.lookup k = some v) :
    k = key ∧ v = rev ∨ txnMeta.readSet.lookup k = some v := by
  by_cases hk : k = key
  · subst hk
    rw [TxnMeta.addRead, AList.lookup_insert] at h
    cases h
    exact Or.inl ⟨rfl, rfl⟩
  · rw [TxnMeta.addRead, AList.lookup_insert_ne hk] at h
    exact Or.inr h

theorem Staged.stage (h : Staged m s t) (e : Event) :
    Staged m s (t.stage e) where
  snapshot := h.snapshot
  metaSnapshot := h.metaSnapshot
  reads := h.reads
  writes k := by
    rw [← AList.mem_keys, Txn.stage, TxnMeta.mem_addWrite, AList.mem_keys, h.writes,
      List.map_append, List.mem_append, List.map_singleton, List.mem_singleton, eq_comm (a := k)]
  marked k b hb := by
    by_cases hk : k = e.kv.key
    · subst hk
      rw [Txn.stage, TxnMeta.addWrite, AList.lookup_insert] at hb
      simpa using hb.symm
    · rw [Txn.stage, TxnMeta.addWrite, AList.lookup_insert_ne hk] at hb
      exact h.marked k b hb

theorem Staged.addRead (h : Staged m s t) (key : Bytes) :
    Staged m s (t.addRead key (m.readRevision key t.snapshotTimestamp)) where
  snapshot := h.snapshot
  metaSnapshot := h.metaSnapshot
  reads k v hv := by
    rcases lookup_addRead hv with ⟨rfl, rfl⟩ | hv
    · rw [h.snapshot]
    · exact h.reads k v hv
  writes := h.writes
  marked := h.marked

theorem Staged.evaluateOp (h : Staged m s t) (heval : m.evaluateOp log t op = .ok (t', resp)) :
    Staged m s t' := by
  cases evaluateOp_effect heval with
  | put | delete => exact h.stage _
  | absent => exact h
  | get => exact h.addRead _
  | list => exact ⟨h.snapshot, h.metaSnapshot, h.reads, h.writes, h.marked⟩

section

variable (heval : m.evaluateOp log t op = .ok (t', resp))
include heval

/-- The reads recorded by a transaction stay recorded. -/
theorem mem_readSet_evaluateOp {k : Bytes} (hk : k ∈ t.txnMeta.readSet) : k ∈ t'.txnMeta.readSet := by
  cases evaluateOp_effect heval with
  | get => exact TxnMeta.mem_addRead.mpr (Or.inl hk)
  | put | delete | absent | list => exact hk

/-- The events that one operation stages. -/
theorem logEvents_evaluateOp :
    ∃ new, t'.logEvents = t.logEvents ++ new ∧
      (new.map (·.kv.key)).Sublist (writeKeys [op]) ∧
      ∀ req, op = .put req → ∃ e ∈ new, e.type = .put ∧ e.kv.key = req.key := by
  cases evaluateOp_effect heval with
  | put req =>
    refine ⟨[_], rfl, List.Sublist.refl _, ?_⟩
    rintro _ ⟨⟩
    exact ⟨_, List.mem_cons_self, rfl, rfl⟩
  | delete req => exact ⟨[_], rfl, List.Sublist.refl _, nofun⟩
  | absent | get | list => exact ⟨[], (List.append_nil _).symm, List.nil_sublist _, nofun⟩

/-- Only a range read notes a range read. -/
theorem hasRangeRead_evaluateOp (hr : t'.txnMeta.hasRangeRead = true) :
    t.txnMeta.hasRangeRead = true ∨ ∃ req, op = .range req ∧ req.rangeEnd.isSome = true := by
  cases evaluateOp_effect heval with
  | put | delete | absent | get => exact Or.inl hr
  | list req hend => exact Or.inr ⟨req, rfl, by simp [hend]⟩

end

/-! ## The loops -/

variable {ops : List RequestOp}

/-- What the loop over the operations keeps and adds. -/
theorem evaluateOps_spec {responses responses' : List ResponseOp}
    (h : Staged m s t) (heval : m.evaluateOps log t responses ops = .ok (t', responses')) :
    Staged m s t' ∧ (∀ k ∈ t.txnMeta.readSet, k ∈ t'.txnMeta.readSet) ∧
    (∃ new, t'.logEvents = t.logEvents ++ new ∧
      (new.map (·.kv.key)).Sublist (writeKeys ops) ∧
      ∀ req, .put req ∈ ops → ∃ e ∈ new, e.type = .put ∧ e.kv.key = req.key) ∧
    (t'.txnMeta.hasRangeRead = true → t.txnMeta.hasRangeRead = true ∨
      ∃ req, .range req ∈ ops ∧ req.rangeEnd.isSome = true) := by
  induction ops generalizing t responses with
  | nil =>
    cases heval
    exact ⟨h, fun _ hk => hk, ⟨[], by simp, by simp, by simp⟩, Or.inl⟩
  | cons op ops ih =>
    obtain ⟨⟨t1, resp⟩, hop, hrest⟩ := bind_eq_ok.mp heval
    obtain ⟨hst, hreads, ⟨new, hnew, hsub, hputs⟩, hrange⟩ := ih (h.evaluateOp hop) hrest
    refine ⟨hst, fun k hk => hreads k (mem_readSet_evaluateOp hop hk), ?_, ?_⟩
    · -- The events of this operation come before those of the others.
      obtain ⟨own, hown, hsub1, hput1⟩ := logEvents_evaluateOp hop
      refine ⟨own ++ new, by rw [hnew, hown, List.append_assoc], ?_, ?_⟩
      · rw [List.map_append, writeKeys, ← List.singleton_append, List.filterMap_append]
        exact hsub1.append hsub
      · intro req hreq
        rcases List.mem_cons.mp hreq with heq | hreq
        · obtain ⟨e, he, hp⟩ := hput1 req heq.symm
          exact ⟨e, List.mem_append_left _ he, hp⟩
        · obtain ⟨e, he, hp⟩ := hputs req hreq
          exact ⟨e, List.mem_append_right _ he, hp⟩
    · intro hr
      rcases hrange hr with hr | ⟨req, hreq, hend⟩
      · rcases hasRangeRead_evaluateOp hop hr with hr | ⟨req, rfl, hend⟩
        · exact Or.inl hr
        · exact Or.inr ⟨req, List.mem_cons_self, hend⟩
      · exact Or.inr ⟨req, List.mem_cons_of_mem _ hreq, hend⟩

variable {conds : List Compare}

/-- What the loop over the compares finds and records. -/
theorem evaluateCompares_spec {txnMeta' : TxnMeta} {failed failed' : Bool}
    (heval : m.evaluateCompares log s txnMeta failed conds = .ok (txnMeta', failed')) :
    (∀ cond ∈ conds, ∃ b, m.evaluateCompare log s cond = .ok b) ∧
    (failed' = false ↔ failed = false ∧
      ∀ cond ∈ conds, m.evaluateCompare log s cond = .ok true) ∧
    (∀ k v, txnMeta'.readSet.lookup k = some v →
      txnMeta.readSet.lookup k = some v ∨ v = m.readRevision k s) ∧
    (∀ k, k ∈ txnMeta'.readSet ↔ k ∈ txnMeta.readSet ∨ ∃ cond ∈ conds, cond.key = k) ∧
    txnMeta'.writeSet = txnMeta.writeSet ∧
    txnMeta'.snapshotRevision = txnMeta.snapshotRevision ∧
    txnMeta'.hasRangeRead = txnMeta.hasRangeRead := by
  induction conds generalizing txnMeta failed with
  | nil =>
    cases heval
    exact ⟨by simp, by simp, fun _ _ h => Or.inl h, by simp, rfl, rfl, rfl⟩
  | cons cond conds ih =>
    obtain ⟨b, hb, hrest⟩ := bind_eq_ok.mp heval
    obtain ⟨hok, hfail, hreads, hmem, hw, hs, hr⟩ := ih hrest
    refine ⟨?_, ?_, ?_, ?_, hw, hs, hr⟩
    · rintro c hc
      rcases List.mem_cons.mp hc with rfl | hc
      · exact ⟨b, hb⟩
      · exact hok c hc
    · rw [hfail, List.forall_mem_cons, hb]
      cases failed <;> cases b <;> simp
    · intro k v hv
      rcases hreads k v hv with hv | rfl
      · rcases lookup_addRead hv with ⟨rfl, rfl⟩ | hv
        · exact Or.inr rfl
        · exact Or.inl hv
      · exact Or.inr rfl
    · intro k
      rw [hmem, TxnMeta.mem_addRead, or_assoc, List.exists_mem_cons_iff]

/-! ## The staged events -/

/-- An event as `put` or `delete` stages it at snapshot `s`, with the event it found on its key. -/
inductive StagedEvent (m : MemoryStorage) (log : LogReader) (s : Nat) : Event → Prop
  | put (req : PutRequest) (prev : Option Event) (hprev : m.prevEvent log req.key s = .ok prev) :
      StagedEvent m log s (putEvent req (s + 1) (liveKv prev))
  | delete (req : DeleteRangeRequest) (old : Event)
      (hold : m.prevEvent log req.key s = .ok (some old)) (hput : old.type = .put) :
      StagedEvent m log s (deleteEvent req (s + 1) old)

/-- Every event that an operation adds is staged at the snapshot. -/
theorem stagedEvent_evaluateOp (h : m.evaluateOp log t op = .ok (t', resp)) {e : Event}
    (he : e ∈ t'.logEvents) : e ∈ t.logEvents ∨ StagedEvent m log t.snapshotTimestamp e := by
  have hstage : ∀ {e'}, e ∈ (t.stage e').logEvents → StagedEvent m log t.snapshotTimestamp e' →
      e ∈ t.logEvents ∨ StagedEvent m log t.snapshotTimestamp e := by
    intro e' he hstaged
    rcases List.mem_append.mp he with he | he
    · exact Or.inl he
    · rw [List.mem_singleton.mp he]
      exact Or.inr hstaged
  cases evaluateOp_effect h with
  | put req prev hprev => exact hstage he (.put req prev hprev)
  | delete req old _ hold hput => exact hstage he (.delete req old hold hput)
  | absent | get | list => exact Or.inl he

theorem stagedEvent_evaluateOps {responses responses' : List ResponseOp}
    (hst : Staged m s t) (heval : m.evaluateOps log t responses ops = .ok (t', responses'))
    (ht : ∀ e ∈ t.logEvents, StagedEvent m log s e) :
    ∀ e ∈ t'.logEvents, StagedEvent m log s e := by
  induction ops generalizing t responses with
  | nil =>
    cases heval
    exact ht
  | cons op ops ih =>
    obtain ⟨⟨t1, resp⟩, hop, hrest⟩ := bind_eq_ok.mp heval
    apply ih (hst.evaluateOp hop) hrest
    intro e he
    rcases stagedEvent_evaluateOp hop he with he | he
    · exact ht e he
    · exact hst.snapshot ▸ he

/-! ## `evaluate` -/

/-- Nothing is staged yet when the operations start. -/
theorem staged_evaluateCompares {failed : Bool}
    (h : m.evaluateCompares log s (TxnMeta.new s) false conds = .ok (txnMeta, failed)) :
    Staged m s ⟨s, [], txnMeta⟩ := by
  obtain ⟨-, -, hreads, -, hw, hs, -⟩ := evaluateCompares_spec h
  refine ⟨rfl, hs, ?_, ?_, ?_⟩
  · intro k v hv
    rcases hreads k v hv with hv | hv
    · simp [TxnMeta.new] at hv
    · exact hv
  · intro k
    simp [hw, TxnMeta.new]
  · intro k b hb
    simp [hw, TxnMeta.new] at hb

/-- `evaluate` goes through the compares and then through the operations of the branch that they select. -/
theorem evaluate_eq_ok {req : TxnRequest} {resp : TxnResponse}
    (heval : m.evaluate log req s = .ok (resp, t)) :
    ∃ txnMeta, m.evaluateCompares log s (TxnMeta.new s) false req.compare =
        .ok (txnMeta, !resp.succeeded) ∧
      m.evaluateOps log ⟨s, [], txnMeta⟩ [] (req.branch resp.succeeded) = .ok (t, resp.responses) ∧
      resp.header = createHeader s := by
  obtain ⟨⟨txnMeta, failed⟩, hcomp, hrest⟩ := bind_eq_ok.mp heval
  obtain ⟨⟨t', responses⟩, hops, hrest⟩ := bind_eq_ok.mp hrest
  cases hrest
  cases failed <;> exact ⟨txnMeta, hcomp, hops, rfl⟩

/-- The events of a transaction are staged at its snapshot. -/
theorem evaluate_events {req : TxnRequest} {resp : TxnResponse}
    (heval : m.evaluate log req s = .ok (resp, t)) : ∀ e ∈ t.logEvents, StagedEvent m log s e := by
  obtain ⟨txnMeta, hcomp, hops, -⟩ := evaluate_eq_ok heval
  exact stagedEvent_evaluateOps (staged_evaluateCompares hcomp) hops (by simp)

/-- What holds of a transaction that `evaluate` has staged. -/
structure Evaluated (m : MemoryStorage) (log : LogReader) (req : TxnRequest) (s : Nat)
    (resp : TxnResponse) (t : Txn) : Prop where
  header : resp.header = createHeader s
  staged : Staged m s t
  compares : ∀ cond ∈ req.compare, ∃ b, m.evaluateCompare log s cond = .ok b
  succeeded : resp.succeeded = true ↔
    ∀ cond ∈ req.compare, m.evaluateCompare log s cond = .ok true
  readKeys : ∀ cond ∈ req.compare, cond.key ∈ t.txnMeta.readSet
  writesSub : (t.logEvents.map (·.kv.key)).Sublist (writeKeys (req.branch resp.succeeded))
  puts : ∀ preq, .put preq ∈ req.branch resp.succeeded →
    ∃ e ∈ t.logEvents, e.type = .put ∧ e.kv.key = preq.key
  rangeReads : t.txnMeta.hasRangeRead = true →
    ∃ rreq, .range rreq ∈ req.branch resp.succeeded ∧ rreq.rangeEnd.isSome = true

theorem evaluate_spec {req : TxnRequest} {resp : TxnResponse}
    (heval : m.evaluate log req s = .ok (resp, t)) : Evaluated m log req s resp t := by
  obtain ⟨txnMeta, hcomp, hops, hheader⟩ := evaluate_eq_ok heval
  obtain ⟨hok, hfail, -, hmem, -, -, hr⟩ := evaluateCompares_spec hcomp
  have hstart := staged_evaluateCompares hcomp
  obtain ⟨hst, hkeep, ⟨new, hnew, hsub, hputs⟩, hrange⟩ := evaluateOps_spec hstart hops
  refine ⟨hheader, hst, hok, ?_, ?_, ?_, ?_, ?_⟩
  · simpa using hfail
  · exact fun cond hcond => hkeep _ ((hmem _).mpr (Or.inr ⟨cond, hcond, rfl⟩))
  · simpa [hnew] using hsub
  · simpa [hnew] using hputs
  · intro hrr
    rcases hrange hrr with hrr | hrr
    · simp [hr, TxnMeta.new] at hrr
    · exact hrr

end MemoryStorage

end CloudEtcd
