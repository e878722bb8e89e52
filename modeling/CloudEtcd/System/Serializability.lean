/-
# CloudEtcd.System.Serializability — a committed transaction against the state right below it.

A transaction is evaluated at an old snapshot, and validated when its batch is committed.  Between the
snapshot and its revision nothing writes a key that it read or writes (`Core.quiet`): for a point transaction
the validation compared the recorded revisions with `committedWrites`, and for a range reader the batch
started at the snapshot and admitted no writer of a key it read.  So what the transaction saw is the
state right below its revision (`Inv.seen_eq_below`), and its compares still hold there.

`validates_alone_iff` is the converse question: when a transaction that nothing interfered with is
rejected all the same.

Committed events carry the revision of their record, so the log a process leaves is again one that a
process may start on (`Reached.reopens`).
-/
import CloudEtcd.System.Agreement

namespace CloudEtcd

open History MemoryStorage

namespace System

variable {R : TxnRequest → Prop} {base : LogHistory} {p0 : Nat} {sys : System}
variable {sub : Submission} {k : Bytes} {w : Nat} {a : Nat × PendingTxn}

/-! ## Writers since the start -/

/-- What `evaluate` did for a submission. -/
theorem Core.evaluated (h : Core R base p0 sys) {n : Nat} (hsub : sys.submissions[n]? = some sub) :
    MemoryStorage.Evaluated sub.ev.store.mem sub.ev.store.log.read sub.req
      sub.ev.txn.snapshotTimestamp sub.ev.resp sub.ev.txn :=
  evaluate_spec (h.submissions sub (List.mem_of_getElem? hsub)).evaluated

/-- A write above the start was made by an accepted transaction. -/
theorem Core.writtenAt (h : Core R base p0 sys) (hbase : ∀ p ∈ base, p.1 ≤ p0)
    (hw : Writes sys.store.history k w) (hgt : p0 < w) : WrittenAt sys.batcher.accepted k w := by
  rw [h.history, writes_append] at hw
  rcases hw with ⟨x, hx, -⟩ | ⟨x, hx, e, he, hk⟩
  · exact absurd (hbase _ hx) (not_le.mpr hgt)
  · obtain ⟨a, ha, heq⟩ := List.mem_map.mp hx
    cases heq
    obtain ⟨sub, hcom⟩ := h.accepted a ha
    refine ⟨a.2, ha, ?_⟩
    rw [PendingTxn.Writes, hcom.txnMeta, (h.evaluated hcom.found).staged.writes,
      ← restamp_keys a.1 ⟨sub.ev.txn.logEvents⟩, ← hcom.logRecord, ← hk]
    exact List.mem_map_of_mem he

/-- An accepted transaction's record is in the history. -/
theorem Core.record_mem (h : Core R base p0 sys) (ha : a ∈ sys.batcher.accepted) :
    (a.1, a.2.logRecord) ∈ sys.store.history := by
  rw [h.history]
  exact List.mem_append_right _ (List.mem_map.mpr ⟨a, ha, rfl⟩)

theorem Core.writes_of_writtenAt (h : Core R base p0 sys) (hw : WrittenAt sys.batcher.accepted k w) :
    Writes sys.store.history k w := by
  obtain ⟨t, ht, hk⟩ := hw
  obtain ⟨sub, hcom⟩ := h.accepted _ ht
  rw [PendingTxn.Writes, hcom.txnMeta, (h.evaluated hcom.found).staged.writes,
    ← restamp_keys w ⟨sub.ev.txn.logEvents⟩, ← hcom.logRecord] at hk
  obtain ⟨e, he, hkey⟩ := List.mem_map.mp hk
  exact ⟨t.logRecord, h.record_mem ht, e, he, hkey⟩

theorem readRevision_le (m : MemoryStorage) (k : Bytes) (s : Nat) : m.readRevision k s ≤ s := by
  unfold readRevision
  cases hl : m.revisions.getLatestRevisionByKey k s with
  | none => exact Nat.zero_le s
  | some r => exact Timeline.le_of_latest hl

/-! ## What a committed transaction saw -/

/-- The write set of an accepted transaction maps its keys to `true`. -/
theorem Core.marked (h : Core R base p0 sys) (ha : a ∈ sys.batcher.accepted) (hk : a.2.Writes k) :
    a.2.txnMeta.writeSet.getD k false = true := by
  obtain ⟨sub, hcom⟩ := h.accepted a ha
  obtain ⟨b, hb⟩ := Option.isSome_iff_exists.mp (AList.lookup_isSome.mpr (AList.mem_keys.mpr hk))
  have hmarked : b = true := (h.evaluated hcom.found).staged.marked k b (hcom.txnMeta ▸ hb)
  simp [GoMap.getD, hb, hmarked]

/-- No write of a key that an accepted transaction read or writes lies between its snapshot and its
revision. -/
theorem Core.quiet (h : Core R base p0 sys) (hbase : ∀ p ∈ base, p.1 ≤ p0)
    (ha : a ∈ sys.batcher.accepted) (hcom : Committed sys.submissions a sub)
    (hk : k ∈ a.2.txnMeta.readSet ∨ a.2.Writes k) (hgt : sub.ev.txn.snapshotTimestamp < w)
    (hlt : w < a.1) : ¬ Writes sys.store.history k w := by
  intro hw
  have hev := h.submissions sub (List.mem_of_getElem? hcom.found)
  have hst := (h.evaluated hcom.found).staged
  have hsnap : a.2.txnMeta.snapshotRevision = sub.ev.txn.snapshotTimestamp := by
    rw [hcom.txnMeta, hst.metaSnapshot]
  obtain ⟨t, ht, htk⟩ := h.writtenAt hbase hw (hev.start_le.trans_lt hgt)
  have hcommits := h.batcher.commits
  cases hrange : a.2.txnMeta.hasRangeRead with
  | false =>
    obtain ⟨hread, hwrite⟩ := hcommits.pairwise hcommits.pointSafe ht ha hlt hrange
    rcases hk with hk | hk
    · obtain ⟨v, hv⟩ := Option.isSome_iff_exists.mp (AList.lookup_isSome.mpr hk)
      have hle := hread k v hv htk
      have hseen : v = sub.ev.store.mem.readRevision k sub.ev.txn.snapshotTimestamp :=
        hst.reads k v (hcom.txnMeta ▸ hv)
      have := readRevision_le sub.ev.store.mem k sub.ev.txn.snapshotTimestamp
      omega
    · have hle := hwrite k hk htk
      omega
  | true =>
    rcases hcommits.pairwise h.batcher.rangeSafe ht ha hlt hrange with hle | hbatch
    · omega
    · -- A batch admits no reader and no second writer of a key that it writes.
      obtain ⟨hwrites, hreads⟩ := Bool.and_eq_true_iff.mp hbatch
      rcases hk with hk | hk
      · have hnot := List.all_eq_true.mp hreads k (AList.mem_keys.mpr hk)
        simp [h.marked ht htk] at hnot
      · have hnot := List.all_eq_true.mp hwrites k htk
        simp [h.marked ha hk] at hnot

/-- What a committed transaction saw of a key it read or writes is the state right below its
revision. -/
theorem Inv.seen_eq_below (h : Inv base p0 sys) (hbase : ∀ p ∈ base, p.1 ≤ p0)
    (ha : a ∈ sys.batcher.accepted) (hcom : Committed sys.submissions a sub)
    (hk : k ∈ a.2.txnMeta.readSet ∨ a.2.Writes k) :
    sub.ev.store.mem.seen sub.ev.store.history sub.ev.txn.snapshotTimestamp k =
      stateAt sys.store.history (a.1 - 1) k := by
  have hev := h.submissions sub (List.mem_of_getElem? hcom.found)
  have hthen := hev.then_inv h.store.wellFormed
  obtain ⟨new, hnew, hhigh⟩ := hev.later.history
  have hhead := hev.applied.trans hev.then_held.applied_le
  have hafter := hcom.after
  -- The evaluation missed nothing: a write it could have missed is a write in between.
  have hexact : sub.ev.store.mem.seen sub.ev.store.history sub.ev.txn.snapshotTimestamp k =
      stateAt sub.ev.store.history sub.ev.txn.snapshotTimestamp k := by
    apply (hthen.coherent.seen_eq_stateAt_iff hev.applied k).mpr
    rintro ⟨-, w, hgt, hle, hw⟩
    have hbelow : w < a.1 :=
      (hle.trans (hthen.compacted_le.trans hthen.applied_le)).trans_lt hafter
    apply h.quiet hbase ha hcom hk hgt hbelow
    rw [hnew]
    exact writes_append.mpr (Or.inl hw)
  have hlast : lastEvent sys.store.history k sub.ev.txn.snapshotTimestamp =
      lastEvent sub.ev.store.history k sub.ev.txn.snapshotTimestamp := by
    rw [hnew]
    exact lastEvent_append (fun p hp => hhead.trans_lt (hhigh p hp)) k
  have hnow : lastEvent sys.store.history k (a.1 - 1) =
      lastEvent sys.store.history k sub.ev.txn.snapshotTimestamp :=
    lastEvent_eq_of_quiet h.held.ascending (by omega) fun w hgt hle =>
      h.quiet hbase ha hcom hk hgt (by omega)
  rw [hexact, stateAt, stateAt, hnow, hlast]

/-- Every compare of a committed transaction had the truth value that it has on the state right below
its revision. -/
theorem Inv.compare_eq (h : Inv base p0 sys) (hbase : ∀ p ∈ base, p.1 ≤ p0)
    (ha : a ∈ sys.batcher.accepted) (hcom : Committed sys.submissions a sub) {cond : Compare}
    (hcond : cond ∈ sub.req.compare) :
    sub.ev.store.mem.evaluateCompare sub.ev.store.log.read sub.ev.txn.snapshotTimestamp cond =
      compareKv cond (stateAt sys.store.history (a.1 - 1) cond.key) := by
  have hev := h.submissions sub (List.mem_of_getElem? hcom.found)
  have hk : cond.key ∈ a.2.txnMeta.readSet := by
    rw [hcom.txnMeta]
    exact (h.evaluated hcom.found).readKeys cond hcond
  rw [(hev.then_inv h.store.wellFormed).coherent.evaluateCompare_eq hev.applied,
    h.seen_eq_below hbase ha hcom (Or.inl hk)]

/-! ## Revisions in events -/

/-- Every event carries the revision of its record. -/
def Stamped (hist : LogHistory) : Prop := ∀ p ∈ hist, ∀ e ∈ p.2.events, e.kv.modRevision = p.1

theorem restamp_stamped {r : Nat} {x : LogRecord} {e : Event} (he : e ∈ (restamp r x).events) :
    e.kv.modRevision = r := by
  obtain ⟨e', -, rfl⟩ := List.mem_map.mp he
  cases htype : e'.type <;> simp [restampEvent, htype]

theorem Core.stamped (h : Core R base p0 sys) (hbase : Stamped base) : Stamped sys.store.history := by
  intro p hp e he
  rw [h.history] at hp
  rcases List.mem_append.mp hp with hp | hp
  · exact hbase p hp e he
  · obtain ⟨a, ha, rfl⟩ := List.mem_map.mp hp
    obtain ⟨sub, hcom⟩ := h.accepted a ha
    rw [hcom.logRecord] at he
    exact restamp_stamped he

theorem start_history {env : LeaseEnv} {log : FilesystemLog} (hstart : start env log = .ok sys) :
    sys.store.history = log.records ∨ ∀ p ∈ sys.store.history, p.2.events = [] := by
  obtain ⟨store, hstore, hrest⟩ := bind_eq_ok.mp hstart
  cases hrest
  exact Store.start_history hstore

theorem stamped_start {env : LeaseEnv} {log : FilesystemLog} (hlog : log.Opened)
    (hstart : start env log = .ok sys) : Stamped sys.store.history := by
  rcases start_history hstart with heq | hnone
  · exact heq ▸ hlog.stamped
  · intro p hp e he
    rw [hnone p hp] at he
    cases he

/-- Whatever a process has done, the directory it leaves is opened by the next one as a log with the
same records, on which what is proved here about a process starts anew. -/
theorem Reached.reopens {env : LeaseEnv} {log : FilesystemLog} {sys₀ : System} (hlog : log.Opened)
    (hstart : start env log = .ok sys₀) (hreach : Reached sys₀ sys) (opts : Options) :
    ∃ log', FilesystemLog.openDir opts sys.store.log.close = .ok log' ∧ log'.Opened ∧
      log'.records = sys.store.log.records := by
  have hinv := hreach.inv hlog hstart
  have hstamped := hinv.stamped (stamped_start hlog hstart)
  obtain ⟨log', hopen, hwf, hrecords, -, hcache⟩ :=
    FilesystemLog.openDir_close hinv.store.files opts
  refine ⟨log', hopen, ⟨hwf, ?_, ?_, hcache⟩, hrecords⟩
  · rw [hrecords]
    exact hinv.store.records_wellFormed
  · rw [hrecords]
    exact fun p hp => hstamped p (hinv.store.recordsIn p hp)

/-- The state of a key carries the revision of the last record that writes it. -/
theorem modRevision_of_state {hist : LogHistory} (hw : WellFormed hist) (hst : Stamped hist)
    {q : Nat} {kv : KeyValue} (hkv : stateAt hist q k = some kv) :
    ∃ w : Nat, kv.modRevision = w ∧ w ≤ q ∧ ∀ r ≤ q, Writes hist k r → r ≤ w := by
  unfold stateAt at hkv
  cases hlast : lastEvent hist k q with
  | none => simp [hlast, liveKv] at hkv
  | some p =>
    obtain ⟨w, e⟩ := p
    obtain ⟨⟨x, hx, hle, he, -⟩, hmax⟩ := (lastEvent_eq_some_iff hw).mp hlast
    have hmod : e.kv.modRevision = w := hst _ hx e he
    cases htype : e.type with
    | delete => simp [hlast, liveKv, htype] at hkv
    | put =>
      have hkv : e.kv = kv := by simpa [hlast, liveKv, htype] using hkv
      exact ⟨w, hkv ▸ hmod, hle, hmax⟩

/-! ## The commit point -/

/-- The compare `mod_revision = v` on a key. -/
def modRevisionIs (k : Bytes) (v : Int) : Compare := ⟨.equal, .mod, k, .modRevision v⟩

/-- A nonzero `mod_revision` guard that holds names the revision of the key's last write. -/
theorem last_write_of_guard {hist : LogHistory} (hw : WellFormed hist) (hst : Stamped hist)
    {q : Nat} {v : Int} (hv : v ≠ 0)
    (hholds : compareKv (modRevisionIs k v) (stateAt hist q k) = .ok true) :
    ∃ w : Nat, v = w ∧ w ≤ q ∧ ∀ r ≤ q, Writes hist k r → r ≤ w := by
  have hmod : (stateAt hist q k).elim 0 KeyValue.modRevision = v := by
    simpa [compareKv, modRevisionIs] using hholds
  cases hkv : stateAt hist q k with
  | none => exact absurd (by simpa [hkv] using hmod.symm) hv
  | some kv =>
    obtain ⟨w, hkvw, hle, hmax⟩ := modRevision_of_state hw hst hkv
    refine ⟨w, ?_, hle, hmax⟩
    rw [← hkvw]
    simpa [hkv] using hmod.symm

end System

section CommitPoint

variable {env : LeaseEnv} {log : FilesystemLog} {sys₀ sys : System}

/-- Two guarded puts of one key cannot both go through their Success branches: the second finds the
write of the first. -/
theorem System.Inv.guarded_lt {base : LogHistory} {p0 : Nat} (h : System.Inv base p0 sys)
    (hbase : ∀ p ∈ base, p.1 ≤ p0) (hst : System.Stamped base) {a a' : Nat × PendingTxn}
    {sub sub' : Submission} (ha : a ∈ sys.batcher.accepted) (ha' : a' ∈ sys.batcher.accepted)
    (hcom : Committed sys.submissions a sub) (hcom' : Committed sys.submissions a' sub')
    {k : Bytes} {v : Int} (hv : v ≠ 0) (hg : System.modRevisionIs k v ∈ sub.req.compare)
    (hg' : System.modRevisionIs k v ∈ sub'.req.compare) (hs : sub.ev.resp.succeeded = true)
    (hs' : sub'.ev.resp.succeeded = true) {preq : PutRequest}
    (hput : .put preq ∈ sub.req.success) (hpk : preq.key = k) : ¬ a.1 < a'.1 := by
  intro hlt
  have hev := h.evaluated hcom.found
  have hev' := h.evaluated hcom'.found
  have hhist := h.stamped hst
  have hholds := hev.succeeded.mp hs _ hg
  have hholds' := hev'.succeeded.mp hs' _ hg'
  rw [h.compare_eq hbase ha hcom hg] at hholds
  rw [h.compare_eq hbase ha' hcom' hg'] at hholds'
  obtain ⟨w, hvw, hle, -⟩ := System.last_write_of_guard h.store.wellFormed hhist hv hholds
  obtain ⟨w', hvw', -, hmax⟩ := System.last_write_of_guard h.store.wellFormed hhist hv hholds'
  -- The first one's own write of the key is at its revision.
  have hwrites : Writes sys.store.history k a.1 := by
    refine h.writes_of_writtenAt ⟨a.2, ha, ?_⟩
    obtain ⟨e, he, -, hek⟩ := hev.puts preq (by simpa [TxnRequest.branch, hs] using hput)
    rw [PendingTxn.Writes, hcom.txnMeta, hev.staged.writes, ← hpk, ← hek]
    exact List.mem_map_of_mem he
  have hpos := (h.batcher.commits.bounds ha).1
  have := hmax a.1 (by omega) hwrites
  omega

/-- Whatever the interleaving, each compare of a committed transaction has on the state right below
its revision the truth value it had when the transaction was evaluated, and the transaction executed
the branch which that state selects.  So of the transactions guarded by one nonzero `mod_revision` of
a key whose Success branches put that key, at most one commits through its Success branch. -/
theorem compares_hold_at_commit (hlog : log.Opened) (hstart : System.start env log = .ok sys₀)
    (hreach : System.Reached sys₀ sys) :
    (∀ a ∈ sys.batcher.accepted, ∃ sub, Committed sys.submissions a sub ∧
      (a.1, restamp a.1 ⟨sub.ev.txn.logEvents⟩) ∈ sys.store.history ∧
      sub.ev.store.mem.evaluate sub.ev.store.log.read sub.req sub.ev.txn.snapshotTimestamp =
        .ok (sub.ev.resp, sub.ev.txn) ∧
      (∀ cond ∈ sub.req.compare, ∃ b,
        sub.ev.store.mem.evaluateCompare sub.ev.store.log.read sub.ev.txn.snapshotTimestamp cond =
          .ok b ∧
        MemoryStorage.compareKv cond (stateAt sys.store.history (a.1 - 1) cond.key) = .ok b) ∧
      (sub.ev.resp.succeeded = true ↔ ∀ cond ∈ sub.req.compare,
        MemoryStorage.compareKv cond (stateAt sys.store.history (a.1 - 1) cond.key) =
          .ok true)) ∧
    ∀ a ∈ sys.batcher.accepted, ∀ a' ∈ sys.batcher.accepted, ∀ sub sub' k v,
      Committed sys.submissions a sub → Committed sys.submissions a' sub' → v ≠ 0 →
      System.modRevisionIs k v ∈ sub.req.compare → System.modRevisionIs k v ∈ sub'.req.compare →
      sub.ev.resp.succeeded = true → sub'.ev.resp.succeeded = true →
      (∃ preq, .put preq ∈ sub.req.success ∧ preq.key = k) →
      (∃ preq, .put preq ∈ sub'.req.success ∧ preq.key = k) → a = a' := by
  have hinv := hreach.inv hlog hstart
  have hbase := (System.Inv.start hlog hstart).store.head
  have hst := System.stamped_start hlog hstart
  constructor
  · intro a ha
    obtain ⟨sub, hcom⟩ := hinv.accepted a ha
    have hev := hinv.evaluated hcom.found
    refine ⟨sub, hcom, ?_, (hinv.submissions sub (List.mem_of_getElem? hcom.found)).evaluated,
      ?_, ?_⟩
    · rw [← hcom.logRecord]
      exact hinv.record_mem ha
    · intro cond hcond
      obtain ⟨b, hb⟩ := hev.compares cond hcond
      exact ⟨b, hb, by rw [← hinv.compare_eq hbase ha hcom hcond, hb]⟩
    · rw [hev.succeeded]
      refine forall₂_congr fun cond hcond => ?_
      rw [hinv.compare_eq hbase ha hcom hcond]
  · rintro a ha a' ha' sub sub' k v hcom hcom' hv hg hg' hs hs' ⟨preq, hput, hpk⟩
      ⟨preq', hput', hpk'⟩
    have h1 := hinv.guarded_lt hbase hst ha ha' hcom hcom' hv hg hg' hs hs' hput hpk
    have h2 := hinv.guarded_lt hbase hst ha' ha hcom' hcom hv hg' hg hs' hs hput' hpk'
    exact hinv.batcher.commits.eq_of_revision ha ha' (by omega)

/-- A put of key 1 that is guarded by the key's `mod_revision`. -/
def putOneIf (v : Int) : TxnRequest :=
  { compare := [System.modRevisionIs [1] v], success := [.put { key := [1] }] }

/-- A key is put at 2; two calls guarded by that revision are evaluated before either is validated. -/
def racingUpdates : List System.Action :=
  System.callAlone 0 (putOne 1) ++
  [.request (putOneIf 2), .readHead 1, .apply 1 noLeases fun _ => false, .evaluate 1,
    .request (putOneIf 2), .readHead 2, .apply 2 noLeases fun _ => false, .evaluate 2,
    .append 1, .append 2, .pick, .flush, .deliver, .pick, .flush, .deliver]

/-- One of them commits, at 3, through its Success branch. -/
theorem compares_hold_racingUpdates : ∃ sys,
    System.runFresh noLeases ⟨0, 0⟩ racingUpdates = some sys ∧
    sys.submissions.map (fun sub => sub.ev.resp.succeeded) = [true, true, true] ∧
    sys.batcher.accepted.map Prod.fst = [2, 3] ∧
    ∀ a ∈ sys.batcher.accepted, ∃ sub, Committed sys.submissions a sub ∧
      (sub.ev.resp.succeeded = true ↔ ∀ cond ∈ sub.req.compare,
        MemoryStorage.compareKv cond (stateAt sys.store.history (a.1 - 1) cond.key) =
          .ok true) := by
  obtain ⟨sys, hsys, hsucceeded, haccepted⟩ : ∃ sys,
      System.runFresh noLeases ⟨0, 0⟩ racingUpdates = some sys ∧
      sys.submissions.map (fun sub => sub.ev.resp.succeeded) = [true, true, true] ∧
      sys.batcher.accepted.map Prod.fst = [2, 3] := by decide +kernel
  have honce : ∀ a ∈ racingUpdates, a.WritesOnce := by decide +kernel
  obtain ⟨log, sys₀, hlog, hstart, hreach⟩ := System.reached_of_runFresh honce hsys
  refine ⟨sys, hsys, hsucceeded, haccepted, fun a ha => ?_⟩
  obtain ⟨sub, hcom, -, -, -, hbranch⟩ := (compares_hold_at_commit hlog hstart hreach).1 a ha
  exact ⟨sub, hcom, hbranch⟩

end CommitPoint

/-! ## Transactions that nothing interferes with -/

section Alone

variable {R : TxnRequest → Prop} {base : LogHistory} {p0 : Nat} {sys : System}

/-- The transactions of the batch that is validated next. -/
def Batcher.held (b : Batcher) : List PendingTxn := b.inHand.flatMap TxnBatch.pendingBatch

theorem Batcher.mem_held {b : Batcher} {t : PendingTxn} (h : t ∈ b.held) :
    ∃ batch ∈ b.batches, t ∈ batch.pendingBatch := by
  obtain ⟨batch, hbatch, ht⟩ := List.mem_flatMap.mp h
  exact ⟨batch, by simp [Batcher.batches, hbatch], ht⟩

/-- When a transaction is validated at the head that it read, its evaluation was at that head too,
and the map holds the accepted writes up to it. -/
theorem System.Core.alone (h : System.Core R base p0 sys) {pre post : List PendingTxn}
    {t : PendingTxn} {sub : Submission} (hheld : sys.batcher.held = pre ++ t :: post)
    (hsub : sys.submissions[t.resultChan]? = some sub) {q : Prepared}
    (hq : q = pre.foldl (prepareTxn sys.batcher.lastLogPosition)
      ⟨sys.batcher.lastLogPosition, [], [], sys.batcher.committedWrites⟩)
    (halone : q.revision = t.txnMeta.snapshotRevision) :
    Submitted sys.submissions t sub ∧
    sub.ev.txn.snapshotTimestamp = t.txnMeta.snapshotRevision ∧
    sub.ev.store.mem.applied = t.txnMeta.snapshotRevision ∧
    sub.ev.store.history = sys.store.history ∧
    Commits p0 t.txnMeta.snapshotRevision q.committedWrites sys.batcher.accepted := by
  obtain ⟨batch, hbatch, ht⟩ := Batcher.mem_held (b := sys.batcher) (t := t) (by simp [hheld])
  obtain ⟨sub', hstaged⟩ := h.waiting batch hbatch t ht
  obtain rfl : sub' = sub := Option.some.inj (hstaged.found.symm.trans hsub)
  have hev := h.submissions sub' (List.mem_of_getElem? hsub)
  have hsnap : sub'.ev.txn.snapshotTimestamp = t.txnMeta.snapshotRevision := by
    rw [hstaged.txnMeta]
    exact (h.evaluated hsub).staged.metaSnapshot.symm
  -- The snapshot, the head at the evaluation and the head now lie between each other.
  have hle1 := hev.applied
  have hle2 := hev.then_held.applied_le
  have hle3 := hev.later.head
  have hle4 := h.position
  have hle5 : sys.batcher.lastLogPosition ≤ q.revision := by
    rw [hq]
    exact le_revision_foldl sys.batcher.lastLogPosition pre
      ⟨sys.batcher.lastLogPosition, [], [], sys.batcher.committedWrites⟩
  have hcommits : Commits p0 q.revision q.committedWrites
      (sys.batcher.accepted ++ q.transactions) := by
    rw [hq]
    apply foldl_prepareTxn_commits _ pre
    rw [List.append_nil]
    exact h.batcher.commits
  have hnone : q.transactions = [] := by
    have h1 := hcommits.position_eq
    have h2 := h.batcher.commits.position_eq
    rw [List.length_append] at h1
    exact List.eq_nil_of_length_eq_zero (by omega)
  rw [hnone, List.append_nil, halone] at hcommits
  refine ⟨hstaged, hsnap, by omega, ?_, hcommits⟩
  obtain ⟨new, hnew, hhigh⟩ := hev.later.history
  have hnil : new = [] := by
    refine List.eq_nil_iff_forall_not_mem.mpr fun p hp => ?_
    have h1 := hhigh p hp
    have h2 := h.held.head p (by rw [hnew]; exact List.mem_append_right _ hp)
    omega
  rw [hnew, hnil, List.append_nil]

/-- The recorded revision of one key passes validation exactly unless the key's last write is a
delete of this run at or below the compaction point of the evaluation. -/
theorem System.Core.read_valid_iff (h : System.Core R base p0 sys) (hbase : ∀ p ∈ base, p.1 ≤ p0)
    {store : Store} (hthen : store.Held) (hhist : store.history = sys.store.history)
    {cw : GoMap Bytes Nat} (hcommits : Commits p0 store.mem.applied cw sys.batcher.accepted)
    (k : Bytes) :
    cw.getD k 0 ≤ store.mem.readRevision k store.mem.applied ↔
      ∀ w e, lastEvent sys.store.history k store.mem.applied = some (w, e) → e.type = .delete →
        p0 < w → store.mem.compacted < w := by
  have hasc := h.held.ascending
  have hslot : SlotInv sys.store.history store.mem.applied store.mem.compacted k
      (store.mem.revisions.slotOf k) := hhist ▸ hthen.index k
  have hiff := hslot.latest_applied_none_iff hasc hthen.compacted_le
  have hwritten : ∀ w, WrittenAt sys.batcher.accepted k w →
      Writes sys.store.history k w ∧ p0 < w ∧ w ≤ store.mem.applied := by
    rintro w hw
    obtain ⟨t, ht, -⟩ := id hw
    exact ⟨h.writes_of_writtenAt hw, hcommits.bounds ht⟩
  rw [getD_le_iff]
  cases hl : store.mem.revisions.getLatestRevisionByKey k store.mem.applied with
  | some r =>
    rw [readRevision, hl, Option.getD_some]
    obtain ⟨e, hlast⟩ := hslot.latest_some hasc le_rfl hl
    obtain ⟨-, hmax⟩ := lastEvent_spec hasc hlast
    constructor
    · intro _ w e' hlast' htype _
      by_contra hle
      have hnone := hiff.mpr fun w' e'' hlast'' => by
        obtain ⟨rfl, rfl⟩ := Prod.mk.inj (Option.some.inj (hlast''.symm.trans hlast'))
        exact ⟨htype, not_lt.mp hle⟩
      exact absurd (hl.symm.trans hnone) (by simp)
    · intro _ w hw
      obtain ⟨hwr, -, hle⟩ := hwritten w ((hcommits.lastWrite k w).mp hw).1
      exact hmax w hle hwr
  | none =>
    rw [readRevision, hl, Option.getD_none]
    constructor
    · intro hzero w e hlast _ hgt
      obtain ⟨⟨x, hx, hle, he, hk⟩, -⟩ := lastEvent_spec hasc hlast
      have hw : WrittenAt sys.batcher.accepted k w :=
        h.writtenAt hbase ⟨x, hx, e, he, hk⟩ hgt
      have := hcommits.le_getD hw ((getD_le_iff cw k 0).mpr hzero)
      omega
    · intro hcond w hw
      -- The last write would be a delete of this run that the compaction has dropped.
      obtain ⟨hwr, hgt, hle⟩ := hwritten w ((hcommits.lastWrite k w).mp hw).1
      cases hlast : lastEvent sys.store.history k store.mem.applied with
      | none => exact absurd hwr (lastEvent_eq_none_iff.mp hlast w hle)
      | some p =>
        obtain ⟨w', e'⟩ := p
        have hmax := (lastEvent_spec hasc hlast).2 w hle hwr
        obtain ⟨htype, hwc⟩ := hiff.mp hl w' e' hlast
        have := hcond w' e' hlast htype (by omega)
        omega

/-- A transaction without range reads that is validated while its snapshot is still the head is
accepted exactly unless it read a key whose last write is a delete made in this run and forgotten by
a compaction. -/
theorem validates_alone_iff {env : LeaseEnv} {log : FilesystemLog} {sys₀ sys : System}
    {actions : List System.Action} (hwf : log.WF) (hcache : log.cache.ll = [])
    (hstart : System.start env log = .ok sys₀)
    (hrun : Transition.run System.step sys₀ actions = some sys) {pre post : List PendingTxn}
    {t : PendingTxn} {sub : Submission} (hheld : sys.batcher.held = pre ++ t :: post)
    (hsub : sys.submissions[t.resultChan]? = some sub)
    (hpoint : t.txnMeta.hasRangeRead = false) {q : Prepared}
    (hq : q = pre.foldl (prepareTxn sys.batcher.lastLogPosition)
      ⟨sys.batcher.lastLogPosition, [], [], sys.batcher.committedWrites⟩)
    (halone : q.revision = t.txnMeta.snapshotRevision) :
    validateTxn t.txnMeta sys.batcher.lastLogPosition q.committedWrites = true ↔
      ∀ k ∈ t.txnMeta.readSet, ∀ w e,
        lastEvent sys.store.history k t.txnMeta.snapshotRevision = some (w, e) →
        e.type = .delete → sys₀.store.log.lastRevision < w → sub.ev.store.mem.compacted < w := by
  have hinv := System.Core.of_run hwf hcache hstart hrun
  have hbase := (System.Bare.start hwf hcache hstart).held.head
  obtain ⟨hstaged, hsnap, happlied, hhist, hcommits⟩ :=
    hinv.alone hheld hsub hq halone
  have hev := hinv.submissions sub (List.mem_of_getElem? hsub)
  rw [← happlied] at hcommits
  have hread := hinv.read_valid_iff hbase hev.then_held hhist hcommits
  rw [validateTxn_point hpoint, ← happlied]
  have hwrites : ∀ k ∈ t.txnMeta.writeSet.keys,
      q.committedWrites.getD k 0 ≤ sub.ev.store.mem.applied := by
    intro k _
    refine (getD_le_iff _ _ _).mpr fun r hr => ?_
    obtain ⟨⟨u, hu, -⟩, -⟩ := (hcommits.lastWrite k r).mp hr
    exact (hcommits.bounds hu).2
  rw [and_iff_left hwrites]
  have hv : ∀ k v, t.txnMeta.readSet.lookup k = some v →
      v = sub.ev.store.mem.readRevision k sub.ev.store.mem.applied := by
    intro k v hlook
    rw [happlied, ← hsnap]
    exact (hinv.evaluated hsub).staged.reads k v (hstaged.txnMeta ▸ hlook)
  constructor
  · intro hall k hk
    obtain ⟨v, hlook⟩ := Option.isSome_iff_exists.mp (AList.lookup_isSome.mpr hk)
    apply (hread k).mp
    rw [← hv k v hlook]
    exact hall k v hlook
  · intro hall k v hlook
    have hk : k ∈ t.txnMeta.readSet := AList.lookup_isSome.mp (by simp [hlook])
    rw [hv k v hlook]
    exact (hread k).mpr (hall k hk)

/-- A `Txn` call that nothing interleaves with, up to the validation of its batch. -/
def callUntilHeld (i : Nat) (req : TxnRequest) : List System.Action :=
  [.request req, .readHead i, .apply i noLeases fun _ => false, .evaluate i, .append i,
    .pick]

/-- A put, and a guarded update of it that is about to be validated. -/
def updateAlone : List System.Action := System.callAlone 0 (putOne 1) ++ callUntilHeld 1 (putOneIf 2)

theorem validates_updateAlone : ∃ sys t,
    System.runFresh noLeases ⟨0, 0⟩ updateAlone = some sys ∧ sys.batcher.held = [t] ∧
    validateTxn t.txnMeta sys.batcher.lastLogPosition sys.batcher.committedWrites = true := by
  obtain ⟨sys, hsys, hposition, hlast, t, hhead, htail, hpoint, hkeys, hsnap, hsome⟩ :
      ∃ sys, System.runFresh noLeases ⟨0, 0⟩ updateAlone = some sys ∧
        sys.batcher.lastLogPosition = 2 ∧
        (lastEvent sys.store.history [1] 2).map (fun p => p.2.type) = some .put ∧
      ∃ t, sys.batcher.held.head? = some t ∧ sys.batcher.held.tail.length = 0 ∧
        t.txnMeta.hasRangeRead = false ∧ t.txnMeta.readSet.keys = [[1]] ∧
        t.txnMeta.snapshotRevision = 2 ∧ sys.submissions[t.resultChan]?.isSome = true := by
    decide +kernel
  obtain ⟨sub, hsub⟩ := Option.isSome_iff_exists.mp hsome
  have ht : sys.batcher.held = [t] := by
    rw [← List.cons_head?_tail hhead, List.length_eq_zero_iff.mp htail]
  obtain ⟨log, sys₀, -, hlog, hstart, hrun⟩ := System.runFresh_eq_some hsys
  refine ⟨sys, t, hsys, ht, ?_⟩
  have hfirst : sys.batcher.held = [] ++ t :: [] := ht
  refine (validates_alone_iff hlog.files hlog.cache hstart hrun hfirst hsub hpoint rfl
    (hposition.trans hsnap.symm)).mpr ?_
  intro k hk w e hlast' htype
  rw [AList.mem_keys, hkeys, List.mem_singleton] at hk
  rw [hk, hsnap] at hlast'
  simp [hlast', htype] at hlast

/-- A key is put, deleted and compacted away; a guarded create of it is about to be validated. -/
def createAfterCompact : List System.Action :=
  System.callAlone 0 (putOne 1) ++
  System.callAlone 1 { success := [.deleteRange { key := [1] }] } ++ [.compact 3] ++
  callUntilHeld 2 (putOneIf 0)

/-- The create is rejected although nothing was committed since its snapshot. -/
theorem create_rejected : ∃ sys, System.runFresh noLeases ⟨0, 0⟩ createAfterCompact = some sys ∧
    ∃ t, sys.batcher.held.head? = some t ∧ sys.batcher.held.length = 1 ∧ t.txnMeta.hasRangeRead = false ∧
      t.txnMeta.snapshotRevision = sys.batcher.lastLogPosition ∧
      sys.submissions[t.resultChan]?.map Submission.req = some (putOneIf 0) ∧
      validateTxn t.txnMeta sys.batcher.lastLogPosition sys.batcher.committedWrites = false := by
  decide +kernel

end Alone

end CloudEtcd
