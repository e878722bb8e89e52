/-
# CloudEtcd.Storage.Footprint — what an evaluation depends on, and what it records of that.

What a storage knows about a key is its `keyHistory`: the revisions in the index, and what the log
answers for each.  Every operation looks at the history of its own key only, so `evaluate` gives the
same on two storages that agree on the keys of the compares and of the branch they select
(`evaluate_congr`).

The read set and the write set have nearly all of these keys (`evaluate_footprint`).  A delete of a key
without an entry at the snapshot looks the key up and records nothing; `footprint_covers_iff` says that
this is the only gap.
-/
import CloudEtcd.Storage.Evaluation

namespace CloudEtcd

open MemoryStorage BPTree

/-- What the storage and its log know about a key. -/
def MemoryStorage.keyHistory (m : MemoryStorage) (log : LogReader) (k : Bytes) :
    List (Nat × Except LogError (Option Event)) :=
  (m.revisions.revisionsOf k).map fun r => (r, (log r).map fun x => findEvent x k)

namespace MemoryStorage

/-! ## Operations on storages that agree -/

section Congr

variable {m m' : MemoryStorage} {log log' : LogReader} {k : Bytes}

section

variable (h : m'.keyHistory log' k = m.keyHistory log k)
include h

theorem revisionsOf_congr : m'.revisions.revisionsOf k = m.revisions.revisionsOf k := by
  have hfst := congrArg (List.map Prod.fst) h
  simpa [keyHistory, List.map_map, Function.comp_def] using hfst

theorem latest_congr (q : Nat) :
    m'.revisions.getLatestRevisionByKey k q = m.revisions.getLatestRevisionByKey k q := by
  rw [getLatestRevisionByKey, getLatestRevisionByKey, revisionsOf_congr h]

/-- The log answers the same for the revisions of the key. -/
theorem lookup_congr {q r : Nat} (hl : m.revisions.getLatestRevisionByKey k q = some r) :
    (log' r).map (fun x => findEvent x k) = (log r).map fun x => findEvent x k := by
  have hmem : r ∈ m.revisions.revisionsOf k := Timeline.mem_of_latest hl
  unfold keyHistory at h
  rw [revisionsOf_congr h] at h
  exact (Prod.mk.inj (List.map_inj_left.mp h r hmem)).2

theorem fetchEvent_congr {q r : Nat} (hl : m.revisions.getLatestRevisionByKey k q = some r) :
    fetchEvent log' k r = fetchEvent log k r := by
  have hlook := lookup_congr h hl
  unfold fetchEvent
  cases h1 : log r with
  | error e =>
    cases h2 : log' r with
    | error e' => rfl
    | ok x' => simp [h1, h2, Except.map] at hlook
  | ok x =>
    cases h2 : log' r with
    | error e' => simp [h1, h2, Except.map] at hlook
    | ok x' =>
      have hfind : findEvent x' k = findEvent x k := by
        simpa [h1, h2, Except.map] using hlook
      simp only [hfind]

theorem prevEvent_congr (q : Nat) : m'.prevEvent log' k q = m.prevEvent log k q := by
  unfold prevEvent
  rw [latest_congr h]
  cases hl : m.revisions.getLatestRevisionByKey k q with
  | none => rfl
  | some r =>
    simp only
    rw [fetchEvent_congr h hl]

end

theorem evaluateCompare_congr {cond : Compare}
    (h : m'.keyHistory log' cond.key = m.keyHistory log cond.key) (s : Nat) :
    m'.evaluateCompare log' s cond = m.evaluateCompare log s cond := by
  rw [evaluateCompare, evaluateCompare, prevEvent_congr h]

theorem put_congr (hlease : m'.leaseManager = m.leaseManager) {req : PutRequest}
    (h : m'.keyHistory log' req.key = m.keyHistory log req.key) (t : Txn) :
    m'.put log' t req = m.put log t req := by
  rw [put, put, hlease, prevEvent_congr h]

theorem delete_congr {req : DeleteRangeRequest}
    (h : m'.keyHistory log' req.key = m.keyHistory log req.key) (t : Txn) :
    m'.delete log' t req = m.delete log t req := by
  unfold delete
  rw [latest_congr h]
  cases hl : m.revisions.getLatestRevisionByKey req.key t.snapshotTimestamp with
  | none => rfl
  | some r =>
    simp only
    rw [fetchEvent_congr h hl]

theorem getKey_congr (h : m'.keyHistory log' k = m.keyHistory log k) (req : RangeRequest)
    (q : Nat) : m'.getKey log' req k q = m.getKey log req k q := by
  unfold getKey
  rw [latest_congr h]
  cases hl : m.revisions.getLatestRevisionByKey k q with
  | none => rfl
  | some r =>
    have hlook := lookup_congr h hl
    cases h1 : log r with
    | error e =>
      cases h2 : log' r with
      | error e' =>
        have he : e' = e := by simpa [h1, h2, Except.map] using hlook
        simp only [h1, h2, he]
      | ok x' => simp [h1, h2, Except.map] at hlook
    | ok x =>
      cases h2 : log' r with
      | error e' => simp [h1, h2, Except.map] at hlook
      | ok x' =>
        have hfind : findEvent x' k = findEvent x k := by
          simpa [h1, h2, Except.map] using hlook
        simp only [h1, h2, hfind]

theorem get_congr (hcompacted : m'.compacted = m.compacted) {req : RangeRequest}
    (h : m'.keyHistory log' (req.key.getD []) = m.keyHistory log (req.key.getD [])) (s : Nat) :
    m'.get log' s req = m.get log s req := by
  have hat : m'.readAt s req = m.readAt s req := by
    simp only [readAt, checkReadRevision, hcompacted]
  cases hkey : req.key with
  | none => simp only [get, hkey]
  | some key =>
    rw [hkey, Option.getD_some] at h
    simp only [get, hkey, hat, getKey_congr h]

end Congr

end MemoryStorage

/-! ## `evaluate` on storages that agree -/

/-- The key that an operation looks at. -/
def RequestOp.key : RequestOp → Option Bytes
  | .put req => some req.key
  | .deleteRange req => some req.key
  | .range req => some (req.key.getD [])
  | .other => none

/-- The operation is not a range read. -/
def RequestOp.IsPoint (op : RequestOp) : Prop := ∀ req, op = .range req → req.rangeEnd = none

/-- No operation of the request is a range read. -/
def TxnRequest.PointOps (req : TxnRequest) : Prop := ∀ op ∈ req.success ++ req.failure, op.IsPoint

variable {req : TxnRequest}

theorem TxnRequest.PointOps.branch (h : req.PointOps) (succeeded : Bool) :
    ∀ op ∈ req.branch succeeded, op.IsPoint := by
  intro op hop
  cases succeeded with
  | true => exact h op (List.mem_append_left _ hop)
  | false => exact h op (List.mem_append_right _ hop)

variable {op : RequestOp} {ops : List RequestOp}

namespace MemoryStorage

/-- All compares hold at the snapshot. -/
def comparesHold (m : MemoryStorage) (log : LogReader) (s : Nat) (conds : List Compare) : Bool :=
  conds.all fun cond => m.evaluateCompare log s cond = .ok true

section Evaluate

variable {m m' : MemoryStorage} {log log' : LogReader} {s : Nat}

theorem evaluateOp_congr (hlease : m'.leaseManager = m.leaseManager)
    (hcompacted : m'.compacted = m.compacted) (hpoint : op.IsPoint)
    (h : ∀ k, op.key = some k → m'.keyHistory log' k = m.keyHistory log k) (t : Txn) :
    m'.evaluateOp log' t op = m.evaluateOp log t op := by
  cases op with
  | put req => simp only [evaluateOp, put_congr hlease (h _ rfl)]
  | deleteRange req => simp only [evaluateOp, delete_congr (h _ rfl)]
  | range req =>
    have hk := h _ rfl
    have hrev : m'.readRevision (req.key.getD []) t.snapshotTimestamp =
        m.readRevision (req.key.getD []) t.snapshotTimestamp := by
      rw [readRevision, readRevision, latest_congr hk]
    simp only [evaluateOp, hpoint req rfl, get_congr hcompacted hk, hrev]
  | other => rfl

theorem evaluateOps_congr (hlease : m'.leaseManager = m.leaseManager)
    (hcompacted : m'.compacted = m.compacted) (hpoint : ∀ op ∈ ops, op.IsPoint)
    (h : ∀ op ∈ ops, ∀ k, op.key = some k → m'.keyHistory log' k = m.keyHistory log k) (t : Txn)
    (responses : List ResponseOp) :
    m'.evaluateOps log' t responses ops = m.evaluateOps log t responses ops := by
  induction ops generalizing t responses with
  | nil => rfl
  | cons op ops ih =>
    have hop := evaluateOp_congr hlease hcompacted (hpoint op List.mem_cons_self)
      (h op List.mem_cons_self) t
    have hops := ih (fun o ho => hpoint o (List.mem_cons_of_mem _ ho))
      fun o ho => h o (List.mem_cons_of_mem _ ho)
    simp only [evaluateOps, hop, hops]

variable {conds : List Compare}

theorem evaluateCompares_congr
    (h : ∀ cond ∈ conds, m'.keyHistory log' cond.key = m.keyHistory log cond.key)
    (txnMeta : TxnMeta) (failed : Bool) :
    m'.evaluateCompares log' s txnMeta failed conds =
      m.evaluateCompares log s txnMeta failed conds := by
  induction conds generalizing txnMeta failed with
  | nil => rfl
  | cons cond conds ih =>
    have hk := h cond List.mem_cons_self
    have hrev : m'.readRevision cond.key s = m.readRevision cond.key s := by
      rw [readRevision, readRevision, latest_congr hk]
    have hconds := ih fun c hc => h c (List.mem_cons_of_mem _ hc)
    simp only [evaluateCompares, evaluateCompare_congr hk, hrev, hconds]

theorem comparesHold_congr
    (h : ∀ cond ∈ conds, m'.keyHistory log' cond.key = m.keyHistory log cond.key) :
    m'.comparesHold log' s conds = m.comparesHold log s conds := by
  rw [Bool.eq_iff_iff, comparesHold, comparesHold, List.all_eq_true, List.all_eq_true]
  refine forall₂_congr fun cond hcond => ?_
  rw [evaluateCompare_congr (h cond hcond)]

/-- The branch that the loop over the compares selects. -/
theorem branch_of_evaluateCompares {txnMeta txnMeta' : TxnMeta} {failed : Bool}
    (h : m.evaluateCompares log s txnMeta false req.compare = .ok (txnMeta', failed)) :
    (if failed then req.failure else req.success) =
      req.branch (m.comparesHold log s req.compare) := by
  obtain ⟨-, hfail, -⟩ := evaluateCompares_spec h
  have hholds : m.comparesHold log s req.compare = !failed := by
    rw [Bool.eq_iff_iff]
    simp only [comparesHold, List.all_eq_true, decide_eq_true_eq, Bool.not_eq_true', hfail, true_and]
  rw [hholds]
  cases failed <;> rfl

/-- `evaluate` depends on the lease table, the compacted revision, and the histories of the keys of the
compares and of the branch they select. -/
theorem evaluate_congr (hlease : m'.leaseManager = m.leaseManager)
    (hcompacted : m'.compacted = m.compacted) (hpoint : req.PointOps)
    (hcmp : ∀ cond ∈ req.compare, m'.keyHistory log' cond.key = m.keyHistory log cond.key)
    (hops : ∀ op ∈ req.branch (m.comparesHold log s req.compare), ∀ k, op.key = some k →
      m'.keyHistory log' k = m.keyHistory log k) :
    m'.evaluate log' req s = m.evaluate log req s := by
  unfold evaluate
  rw [evaluateCompares_congr hcmp]
  cases hc : m.evaluateCompares log s (TxnMeta.new s) false req.compare with
  | error e => rfl
  | ok r =>
    obtain ⟨txnMeta, failed⟩ := r
    have hbranch := branch_of_evaluateCompares hc
    have heq := evaluateOps_congr hlease hcompacted (hpoint.branch _) hops ⟨s, [], txnMeta⟩ []
    simp only [bind, Except.bind, hbranch, heq]

end Evaluate

end MemoryStorage

/-! ## What is recorded -/

/-- The key that an operation records as read. -/
def RequestOp.readKey : RequestOp → Option Bytes
  | .range req => if req.rangeEnd.isNone then some (req.key.getD []) else none
  | _ => none

/-- The key that an operation marks as written: a delete marks its key only if the index has an entry
at the snapshot. -/
def MemoryStorage.markKey (m : MemoryStorage) (s : Nat) : RequestOp → Option Bytes
  | .put req => some req.key
  | .deleteRange req =>
    if (m.revisions.getLatestRevisionByKey req.key s).isSome then some req.key else none
  | _ => none

namespace MemoryStorage

variable {m : MemoryStorage} {log : LogReader}

/-- What one operation adds to the footprint. -/
theorem footprint_evaluateOp {t t' : Txn} {resp : ResponseOp}
    (h : m.evaluateOp log t op = .ok (t', resp)) (k : Bytes) :
    (k ∈ t'.txnMeta.readSet ↔ k ∈ t.txnMeta.readSet ∨ op.readKey = some k) ∧
    (k ∈ t'.txnMeta.writeSet ↔
      k ∈ t.txnMeta.writeSet ∨ m.markKey t.snapshotTimestamp op = some k) := by
  have hstage : ∀ e : Event, k ∈ (t.stage e).txnMeta.writeSet ↔
      k ∈ t.txnMeta.writeSet ∨ some e.kv.key = some k := by
    intro e
    rw [Txn.stage, TxnMeta.mem_addWrite, Option.some.injEq]
  cases evaluateOp_effect h with
  | put req => exact ⟨by simp [RequestOp.readKey, Txn.stage, TxnMeta.addWrite], hstage _⟩
  | delete req old hindexed =>
    refine ⟨by simp [RequestOp.readKey, Txn.stage, TxnMeta.addWrite], ?_⟩
    rw [hstage, markKey, hindexed]
    simp [deleteEvent]
  | absent req hnone => exact ⟨by simp [RequestOp.readKey], by simp [markKey, hnone]⟩
  | get req hend =>
    refine ⟨?_, by simp [markKey, Txn.addRead, TxnMeta.addRead]⟩
    rw [Txn.addRead, TxnMeta.mem_addRead, RequestOp.readKey, hend, Option.isNone_none, if_pos rfl,
      Option.some.injEq]
  | list req hend =>
    exact ⟨by simp [RequestOp.readKey, hend, Txn.addList, TxnMeta.addList],
      by simp [markKey, Txn.addList, TxnMeta.addList]⟩

theorem footprint_evaluateOps {t t' : Txn}
    {responses responses' : List ResponseOp} {s : Nat} (hs : t.snapshotTimestamp = s)
    (h : m.evaluateOps log t responses ops = .ok (t', responses')) (k : Bytes) :
    (k ∈ t'.txnMeta.readSet ↔ k ∈ t.txnMeta.readSet ∨ ∃ op ∈ ops, op.readKey = some k) ∧
    (k ∈ t'.txnMeta.writeSet ↔
      k ∈ t.txnMeta.writeSet ∨ ∃ op ∈ ops, m.markKey s op = some k) := by
  induction ops generalizing t responses with
  | nil =>
    cases h
    simp
  | cons op ops ih =>
    obtain ⟨⟨t1, resp⟩, hop, hrest⟩ := bind_eq_ok.mp h
    obtain ⟨hread, hmark⟩ := footprint_evaluateOp hop k
    have hs1 : t1.snapshotTimestamp = s := by
      cases evaluateOp_effect hop <;> exact hs
    obtain ⟨hreads, hmarks⟩ := ih hs1 hrest
    rw [hs] at hmark
    constructor
    · rw [hreads, hread, or_assoc, List.exists_mem_cons_iff]
    · rw [hmarks, hmark, or_assoc, List.exists_mem_cons_iff]

/-- The read set has the keys of the compares and of the point reads of the selected branch, the write
set those of its puts and of its deletes that found something. -/
theorem evaluate_footprint {s : Nat} {resp : TxnResponse} {t : Txn}
    (h : m.evaluate log req s = .ok (resp, t)) (k : Bytes) :
    (k ∈ t.txnMeta.readSet ↔ (∃ cond ∈ req.compare, cond.key = k) ∨
      ∃ op ∈ req.branch (m.comparesHold log s req.compare), op.readKey = some k) ∧
    (k ∈ t.txnMeta.writeSet ↔
      ∃ op ∈ req.branch (m.comparesHold log s req.compare), m.markKey s op = some k) := by
  obtain ⟨⟨txnMeta, failed⟩, hcomp, hrest⟩ := bind_eq_ok.mp h
  obtain ⟨⟨t', responses⟩, hops, hrest⟩ := bind_eq_ok.mp hrest
  cases hrest
  rw [branch_of_evaluateCompares hcomp] at hops
  obtain ⟨hreads, hmarks⟩ := footprint_evaluateOps rfl hops k
  obtain ⟨-, -, -, hmem, hw, -⟩ := evaluateCompares_spec hcomp
  refine ⟨?_, ?_⟩
  · rw [hreads, hmem]
    simp [TxnMeta.new]
  · rw [hmarks]
    simp [hw, TxnMeta.new]

end MemoryStorage

/-! ## The gap -/

variable {k : Bytes}

namespace MemoryStorage

/-- The storage with one more revision of a key, before all others. -/
def withFirst (m : MemoryStorage) (k : Bytes) (s : Nat) : MemoryStorage :=
  { m with
    revisions := m.revisions.alterKey k fun slot =>
      ⟨s :: slot.elim [] Slot.revisions, slot.elim false Slot.tombstone, by simp⟩ }

/-- The log with a put of a key at the end of one record. -/
def withPut (log : LogReader) (k : Bytes) (s : Nat) : LogReader := fun r =>
  if r = s then (log r).map fun x => ⟨x.events ++ [⟨.put, { key := k }, none⟩]⟩ else log r

theorem latest_withFirst {m : MemoryStorage} {s : Nat}
    (hl : m.revisions.getLatestRevisionByKey k s = none) :
    (m.withFirst k s).revisions.getLatestRevisionByKey k s = some s := by
  have hrevs : (m.withFirst k s).revisions.revisionsOf k = [s] ++ m.revisions.revisionsOf k := by
    rw [revisionsOf, withFirst, slotOf_alterKey, if_pos rfl]
    rfl
  rw [getLatestRevisionByKey, hrevs, Timeline.latest_append]
  rw [getLatestRevisionByKey] at hl
  rw [hl]
  simp [Timeline.latest]

/-- Other keys keep their histories. -/
theorem keyHistory_withFirst (m : MemoryStorage) (log : LogReader) {k' : Bytes} (s : Nat)
    (hne : k' ≠ k) : (m.withFirst k s).keyHistory (withPut log k s) k' = m.keyHistory log k' := by
  have hrevs : (m.withFirst k s).revisions.revisionsOf k' = m.revisions.revisionsOf k' := by
    rw [revisionsOf, withFirst, slotOf_alterKey, if_neg hne]
    rfl
  have hlog : ∀ r, (withPut log k s r).map (fun x => findEvent x k') =
      (log r).map fun x => findEvent x k' := by
    intro r
    unfold withPut
    split
    · cases log r with
      | error e => rfl
      | ok x =>
        have hskip : ¬ k = k' := fun h => hne h.symm
        simp [Except.map, findEvent, List.find?_append, hskip]
    · rfl
  rw [keyHistory, keyHistory, hrevs]
  exact List.map_congr_left fun r _ => by rw [hlog]

end MemoryStorage

/-- Every key that the selected branch deletes without finding an entry is compared, read or put by the
transaction as well. -/
def MemoryStorage.DeletesCovered (m : MemoryStorage) (log : LogReader) (s : Nat)
    (req : TxnRequest) : Prop :=
  ∀ dreq, .deleteRange dreq ∈ req.branch (m.comparesHold log s req.compare) →
    m.revisions.getLatestRevisionByKey dreq.key s = none →
    (∃ cond ∈ req.compare, cond.key = dreq.key) ∨
    ∃ op ∈ req.branch (m.comparesHold log s req.compare),
      op.readKey = some dreq.key ∨ ∃ preq, op = .put preq ∧ preq.key = dreq.key

section Covered

variable {m : MemoryStorage} {log : LogReader} {req : TxnRequest} {s : Nat} {resp : TxnResponse}
  {t : Txn}

/-- A key that is deleted in vain and not covered otherwise is in neither set. -/
theorem MemoryStorage.unmarked_of_not_covered (heval : m.evaluate log req s = .ok (resp, t))
    (hnone : m.revisions.getLatestRevisionByKey k s = none)
    (hcmp : ¬ ∃ cond ∈ req.compare, cond.key = k)
    (hops : ¬ ∃ op ∈ req.branch (m.comparesHold log s req.compare),
      op.readKey = some k ∨ ∃ preq, op = .put preq ∧ preq.key = k) :
    k ∉ t.txnMeta.readSet ∧ k ∉ t.txnMeta.writeSet := by
  have hfoot := evaluate_footprint heval k
  constructor
  · rw [hfoot.1]
    rintro (hc | ⟨op, hop, hk⟩)
    · exact hcmp hc
    · exact hops ⟨op, hop, Or.inl hk⟩
  · rw [hfoot.2]
    rintro ⟨op, hop, hk⟩
    cases op with
    | put preq => exact hops ⟨_, hop, Or.inr ⟨preq, rfl, by simpa [markKey] using hk⟩⟩
    | deleteRange dreq =>
      have hk' : (m.revisions.getLatestRevisionByKey dreq.key s).isSome = true ∧
          dreq.key = k := by simpa [markKey] using hk
      rw [hk'.2, hnone] at hk'
      exact absurd hk'.1 (by simp)
    | range rreq => simp [markKey] at hk
    | other => simp [markKey] at hk

/-- If the deletes in vain are covered, every key of the selected branch is in one of the sets. -/
theorem MemoryStorage.DeletesCovered.marked (hcov : m.DeletesCovered log s req)
    (hpoint : req.PointOps) (heval : m.evaluate log req s = .ok (resp, t))
    (hop : op ∈ req.branch (m.comparesHold log s req.compare))
    (hk : op.key = some k) : k ∈ t.txnMeta.readSet ∨ k ∈ t.txnMeta.writeSet := by
  have hfoot := evaluate_footprint heval
  cases op with
  | put preq => exact Or.inr ((hfoot k).2.mpr ⟨_, hop, hk⟩)
  | deleteRange dreq =>
    obtain rfl : dreq.key = k := Option.some.inj hk
    cases hl : m.revisions.getLatestRevisionByKey dreq.key s with
    | some r =>
      refine Or.inr ((hfoot dreq.key).2.mpr ⟨_, hop, ?_⟩)
      rw [markKey, hl]
      rfl
    | none =>
      rcases hcov dreq hop hl with hc | ⟨op', hop', hr | ⟨preq, rfl, hp⟩⟩
      · exact Or.inl ((hfoot dreq.key).1.mpr (Or.inl hc))
      · exact Or.inl ((hfoot dreq.key).1.mpr (Or.inr ⟨op', hop', hr⟩))
      · exact Or.inr ((hfoot dreq.key).2.mpr ⟨_, hop', congrArg some hp⟩)
  | range rreq =>
    have hend := hpoint.branch _ _ hop rreq rfl
    refine Or.inl ((hfoot k).1.mpr (Or.inr ⟨_, hop, ?_⟩))
    rw [RequestOp.readKey, hend]
    exact hk
  | other => cases hk

end Covered

/-- The recorded footprint of a transaction without range reads covers all it depended on exactly when
every key that it deletes in vain is covered otherwise: then, and only then, every storage with the
same lease table and compacted revision that gives the keys of the read set and the write set the same
histories evaluates it to the same responses, events and footprint. -/
theorem footprint_covers_iff {m : MemoryStorage} {log : LogReader} {req : TxnRequest} {s : Nat}
    {resp : TxnResponse} {t : Txn} (hpoint : req.PointOps)
    (heval : m.evaluate log req s = .ok (resp, t)) :
    (∀ (m' : MemoryStorage) (log' : LogReader), m'.leaseManager = m.leaseManager →
      m'.compacted = m.compacted →
      (∀ k, k ∈ t.txnMeta.readSet ∨ k ∈ t.txnMeta.writeSet →
        m'.keyHistory log' k = m.keyHistory log k) →
      m'.evaluate log' req s = .ok (resp, t)) ↔ m.DeletesCovered log s req := by
  constructor
  · intro hall dreq hdel hnone
    by_contra hnot
    obtain ⟨hcmp, hops⟩ := not_or.mp hnot
    -- The key is in neither set, so its history may differ: let it have been put at the snapshot.
    obtain ⟨hread, hwrite⟩ := unmarked_of_not_covered heval hnone hcmp hops
    have hagree : ∀ k, k ≠ dreq.key →
        (m.withFirst dreq.key s).keyHistory (withPut log dreq.key s) k =
          m.keyHistory log k :=
      fun k hk => keyHistory_withFirst m log s hk
    have hother := hall (m.withFirst dreq.key s) (withPut log dreq.key s) rfl rfl
      fun k hk => hagree k (by rintro rfl; exact hk.elim hread hwrite)
    -- There the same branch is selected, and the delete finds an entry and marks the key.
    refine hwrite (((evaluate_footprint hother) dreq.key).2.mpr
      ⟨.deleteRange dreq, ?_, ?_⟩)
    · rw [comparesHold_congr fun cond hcond =>
        hagree cond.key fun heq => hcmp ⟨cond, hcond, heq⟩]
      exact hdel
    · rw [markKey, latest_withFirst hnone]
      rfl
  · intro hcov m' log' hlease hcompacted hagree
    have hfoot := evaluate_footprint heval
    rw [evaluate_congr hlease hcompacted hpoint ?_ fun op hop k hk =>
      hagree k (hcov.marked hpoint heval hop hk)]
    · exact heval
    · exact fun cond hcond => hagree _ (Or.inl ((hfoot _).1.mpr (Or.inl ⟨cond, hcond, rfl⟩)))

/-- Delete key 1 and put key 2. -/
def deleteAndPut : TxnRequest :=
  { success := [.deleteRange { key := [1] }, .put { key := [2] }] }

/-- A log whose second record has the given events. -/
def logWith (events : List Event) : LogReader := fun r =>
  if r = 1 then .ok ⟨[]⟩ else if r = 2 then .ok ⟨events⟩ else .error (.notFound r)

/-- A storage that has replayed it. -/
def storageWith (events : List Event) : MemoryStorage :=
  new.replayLog ⟨0, fun _ => none⟩ [(1, ⟨[]⟩), (2, ⟨events⟩)] 2

/-- Without key 1 the footprint is key 2 alone; a storage that agrees on key 2 but has key 1 deletes
it. -/
theorem delete_in_vain_not_covered : ∃ resp t,
    (storageWith []).evaluate (logWith []) deleteAndPut 2 = .ok (resp, t) ∧
    let events : List Event := [⟨.put, { key := [1], modRevision := 2 }, none⟩]
    (storageWith events).leaseManager = (storageWith []).leaseManager ∧
    (storageWith events).compacted = (storageWith []).compacted ∧
    (∀ k, k ∈ t.txnMeta.readSet ∨ k ∈ t.txnMeta.writeSet →
      (storageWith events).keyHistory (logWith events) k =
        (storageWith []).keyHistory (logWith []) k) ∧
    (storageWith events).evaluate (logWith events) deleteAndPut 2 ≠ .ok (resp, t) := by
  have hfirst : ((storageWith []).evaluate (logWith []) deleteAndPut 2).toOption.map (fun r =>
      (r.1.responses.length, r.2.logEvents.length, r.2.txnMeta.readSet.keys,
        r.2.txnMeta.writeSet.keys)) = some (2, 1, [], [[2]]) := by
    decide +kernel
  have hsecond : ((storageWith [⟨.put, { key := [1], modRevision := 2 }, none⟩]).evaluate
      (logWith [⟨.put, { key := [1], modRevision := 2 }, none⟩]) deleteAndPut 2).toOption.map
      (fun r => r.2.logEvents.length) = some 2 := by
    decide +kernel
  cases heval : (storageWith []).evaluate (logWith []) deleteAndPut 2 with
  | error e => simp [heval, Except.toOption] at hfirst
  | ok r =>
    obtain ⟨resp, t⟩ := r
    simp only [heval, Except.toOption, Option.map_some, Option.some.injEq, Prod.mk.injEq] at hfirst
    obtain ⟨-, hlength, hread, hwrite⟩ := hfirst
    refine ⟨resp, t, rfl, rfl, rfl, ?_, ?_⟩
    · intro k hk
      rw [AList.mem_keys, AList.mem_keys, hread, hwrite] at hk
      have hk : k = [2] := by simpa using hk
      rw [hk]
      decide +kernel
    · intro heq
      rw [heq] at hsecond
      simp [Except.toOption, hlength] at hsecond

/-- A delete of a key that the transaction also compares leaves no gap. -/
theorem guarded_delete_covered : ∃ resp t, let req : TxnRequest :=
      { compare := [⟨.equal, .mod, [1], .modRevision 0⟩], success := [.deleteRange { key := [1] }] }
    (storageWith []).evaluate (logWith []) req 2 = .ok (resp, t) ∧
    ∀ (m' : MemoryStorage) (log' : LogReader), m'.leaseManager = (storageWith []).leaseManager →
      m'.compacted = (storageWith []).compacted →
      (∀ k, k ∈ t.txnMeta.readSet ∨ k ∈ t.txnMeta.writeSet →
        m'.keyHistory log' k = (storageWith []).keyHistory (logWith []) k) →
      m'.evaluate log' req 2 = .ok (resp, t) := by
  have hsome : ((storageWith []).evaluate (logWith [])
      { compare := [⟨.equal, .mod, [1], .modRevision 0⟩],
        success := [.deleteRange { key := [1] }] } 2).toOption.isSome = true := by
    decide +kernel
  cases heval : (storageWith []).evaluate (logWith [])
      { compare := [⟨.equal, .mod, [1], .modRevision 0⟩],
        success := [.deleteRange { key := [1] }] } 2 with
  | error e => simp [heval, Except.toOption] at hsome
  | ok r =>
    obtain ⟨resp, t⟩ := r
    have hpoint : TxnRequest.PointOps
        { compare := [⟨.equal, .mod, [1], .modRevision 0⟩],
          success := [.deleteRange { key := [1] }] } := by
      intro op hop rreq heq
      rw [heq] at hop
      simp at hop
    refine ⟨resp, t, heval, (footprint_covers_iff hpoint heval).mpr ?_⟩
    intro dreq hdel _
    have hkey : dreq.key = [1] := by
      have hop : RequestOp.deleteRange dreq ∈ [RequestOp.deleteRange { key := [1] }] ∨
          RequestOp.deleteRange dreq ∈ ([] : List RequestOp) := by
        unfold TxnRequest.branch at hdel
        split at hdel
        · exact Or.inl hdel
        · exact Or.inr hdel
      rcases hop with hop | hop
      · cases List.mem_singleton.mp hop
        rfl
      · exact absurd hop List.not_mem_nil
    exact Or.inl ⟨_, List.mem_singleton_self _, hkey.symm⟩

end CloudEtcd
