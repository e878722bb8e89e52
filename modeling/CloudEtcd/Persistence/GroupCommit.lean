/-
# CloudEtcd.Persistence.GroupCommit — every `Add` call gets one answer, and the right one.

`GroupCommit` is `Batching` with the sends on the result channels taken one at a time and with a record
of what happened: the `Add` calls, what the `FlushFunc` was handed under which revision, and the results
sent.  A result channel is the number of its `Add` call.

Batches are prepared in the order in which they were opened, and every `Add` call joins the last of them,
so the prepared and the waiting batches together hold the calls in order (`Ledger.pendings`).  `prepare`
accepts or rejects each transaction of a batch (`foldl_prepareTxn_channels`), so every prepared call has
one result, sent or about to be sent (`Ledger.sends`).
-/
import CloudEtcd.Persistence.Validation

namespace CloudEtcd

open Batcher
open List (map_cons mem_append mem_map map_append mem_cons_self mem_append_left mem_flatMap mem_singleton
  append_nil)

/-! ## The results of one batch -/

/-- The loop of `prepare` accepts or rejects each transaction, and keeps their order. -/
theorem foldl_prepareTxn_channels (start : Nat) (txns : List PendingTxn) (p : Prepared) :
    ∃ new rej, (txns.foldl (prepareTxn start) p).transactions = p.transactions ++ new ∧
      (txns.foldl (prepareTxn start) p).rejected = p.rejected ++ rej ∧
      (new.map fun a => a.2.resultChan).Sublist (txns.map PendingTxn.resultChan) ∧
      ((new.map fun a => a.2.resultChan) ++ rej).Perm (txns.map PendingTxn.resultChan) := by
  induction txns generalizing p with
  | nil => exact ⟨[], [], by simp, by simp, by simp, by simp⟩
  | cons txn txns ih =>
    obtain ⟨new, rej, hnew, hrej, hsub, hperm⟩ := ih (prepareTxn start p txn)
    rw [List.foldl_cons, hnew, hrej, map_cons]
    unfold prepareTxn
    split
    · refine ⟨(p.revision + 1, { txn with logRecord := restamp (p.revision + 1) txn.logRecord })
        :: new, rej, by simp, by simp, ?_, ?_⟩
      · exact hsub.cons_cons txn.resultChan
      · exact hperm.cons txn.resultChan
    · refine ⟨new, txn.resultChan :: rej, by simp, by simp, hsub.cons _, ?_⟩
      exact List.perm_middle.trans (hperm.cons _)

/-- Every transaction of a batch is accepted or rejected. -/
theorem prepare_channels {b : TxnBatch} (hfresh : b.flushed = false) (position : Nat)
    (cw : GoMap Bytes Nat) :
    ((b.prepare position cw).2.transactions.map fun a => a.2.resultChan).Sublist
      (b.pendingBatch.map PendingTxn.resultChan) ∧
    (((b.prepare position cw).2.transactions.map fun a => a.2.resultChan) ++
      (b.prepare position cw).2.rejected).Perm (b.pendingBatch.map PendingTxn.resultChan) := by
  rw [TxnBatch.prepare, hfresh, Bool.false_or]
  split
  · next hempty =>
    rw [List.isEmpty_iff] at hempty
    simp [hempty]
  · obtain ⟨new, rej, hnew, hrej, hsub, hperm⟩ :=
      foldl_prepareTxn_channels position b.pendingBatch ⟨position, [], [], cw⟩
    rw [hnew, hrej]
    exact ⟨hsub, hperm⟩

/-- The results that a call of `flushBatch` sends. -/
def Flush.results (f : Flush) : List (Nat × BatchResult) :=
  resultsOf (f.batch.prepare f.lastLogPosition f.committedWrites).2

section Flush

variable {f : Flush}

/-- One result for each transaction of the batch. -/
theorem Flush.Faithful.results_channels (h : f.Faithful) :
    (f.results.map Prod.fst).Perm (f.batch.pendingBatch.map PendingTxn.resultChan) := by
  have hperm := (prepare_channels h.fresh f.lastLogPosition f.committedWrites).2
  simpa [Flush.results, resultsOf, Function.comp_def] using hperm

theorem Flush.Faithful.accepted_channels (h : f.Faithful) :
    (f.accepted.map fun a => a.2.resultChan).Sublist
      (f.batch.pendingBatch.map PendingTxn.resultChan) := by
  rw [h.accepted_eq]
  exact (prepare_channels h.fresh f.lastLogPosition f.committedWrites).1

/-- A success reports the revision of an accepted transaction. -/
theorem Flush.Faithful.mem_results_success (h : f.Faithful) {ch r : Nat} :
    (ch, ⟨r, true⟩) ∈ f.results ↔ ∃ t, (r, t) ∈ f.accepted ∧ t.resultChan = ch := by
  rw [h.accepted_eq]
  simp only [Flush.results, resultsOf, mem_append, mem_map, Prod.mk.injEq,
    BatchResult.mk.injEq]
  constructor
  · rintro (⟨⟨r', t⟩, ht, hch, hr, -⟩ | ⟨ch', -, -, -, hfalse⟩)
    · exact ⟨t, hr ▸ ht, hch⟩
    · cases hfalse
  · rintro ⟨t, ht, hch⟩
    exact Or.inl ⟨(r, t), ht, hch, rfl, trivial⟩

end Flush

/-! ## The machine -/

namespace Batcher

/-- The next send of `flushBatch`; the channels have room for one result. -/
def sendNext (b : Batcher) : Option (Batcher × (Nat × BatchResult)) :=
  match b.flusher with
  | .delivering (r :: rest) =>
    some ({ b with flusher := .delivering rest, results := b.results.insert r.1 r.2 }, r)
  | _ => none

/-- `flushBatch` returns once everything is sent. -/
def finish (b : Batcher) : Option Batcher :=
  match b.flusher with
  | .delivering [] => some { b with flusher := .idle }
  | _ => none

/-- The results of the last flush that are not sent yet. -/
def undelivered (b : Batcher) : List (Nat × BatchResult) :=
  match b.flusher with
  | .delivering results => results
  | _ => []

/-- The transactions of the batches that were prepared or wait, in the order of the batches. -/
def pendings (b : Batcher) : List PendingTxn :=
  (b.flushes.map Flush.batch ++ b.batches).flatMap TxnBatch.pendingBatch

end Batcher

/-- `Batching`, its `Add` calls, what its `FlushFunc` was handed, and what it sent. -/
structure GroupCommit where
  batcher : Batcher
  adds : List (LogRecord × TxnMeta)
  handed : List (Nat × PendingTxn)
  sent : List (Nat × BatchResult)

namespace GroupCommit

/-- `NewBatching`. -/
def new (lastLogPosition : Nat) : GroupCommit := ⟨Batcher.new lastLogPosition, [], [], []⟩

/-- The transactions handed to the `FlushFunc`, under the revisions that the log gives them. -/
def handOver (lastLogPosition : Nat) (transactions : List PendingTxn) : List (Nat × PendingTxn) :=
  transactions.mapIdx fun i txn => (lastLogPosition + 1 + i, txn)

/-- The steps of clients and of the flusher. -/
inductive Action where
  | add (logRecord : LogRecord) (txnMeta : TxnMeta)
  | pick
  | flush
  | send
  | finish
  | close

/-- One step, with a `FlushFunc` that succeeds and `Add` calls that are made before `Close`. -/
def step (g : GroupCommit) : Action → Option GroupCommit
  | .add logRecord txnMeta =>
    if g.batcher.stop then none
    else some { g with
      batcher := g.batcher.add logRecord txnMeta
      adds := g.adds ++ [(logRecord, txnMeta)] }
  | .pick => g.batcher.pick.map fun b => { g with batcher := b }
  | .flush => g.batcher.flush.map fun r => { g with
      batcher := r.1
      handed := g.handed ++ handOver g.batcher.lastLogPosition (r.2.map Prod.snd) }
  | .send => g.batcher.sendNext.map fun r => { g with batcher := r.1, sent := g.sent ++ [r.2] }
  | .finish => g.batcher.finish.map fun b => { g with batcher := b }
  | .close => some { g with batcher := g.batcher.close }

end GroupCommit

/-! ## The ledger -/

variable {commit : List (Nat × PendingTxn)}

namespace Batcher

variable {b b' : Batcher} {adds : List (LogRecord × TxnMeta)} {sent : List (Nat × BatchResult)}

/-- The batches against the `Add` calls made and the results sent. -/
structure Ledger (adds : List (LogRecord × TxnMeta)) (sent : List (Nat × BatchResult))
    (b : Batcher) : Prop where
  /-- The batches hold the calls, in order. -/
  pendings : b.pendings = adds.mapIdx fun i a => ⟨a.1, a.2, i⟩
  added : b.added = adds.length
  faithful : ∀ f ∈ b.flushes, f.Faithful
  waiting : ∀ batch ∈ b.batches, batch.flushed = false
  /-- What was decided is what was sent and what is about to be sent. -/
  sends : b.flushes.flatMap Flush.results = sent ++ b.undelivered
  results : ∀ ch res, b.results.lookup ch = some res ↔ (ch, res) ∈ sent

theorem Ledger.new (p0 : Nat) : Ledger [] [] (new p0) where
  pendings := rfl
  added := rfl
  faithful := by simp [Batcher.new]
  waiting := by simp [batches, inHand, Batcher.new]
  sends := rfl
  results := by simp [Batcher.new]

/-- The prepared transactions, by their channels, are the first `Add` calls. -/
theorem Ledger.channels (h : Ledger adds sent b) :
    b.pendings.map PendingTxn.resultChan = List.range adds.length := by
  rw [h.pendings, List.mapIdx_eq_zipIdx_map, List.map_map]
  exact List.zipIdx_map_snd 0 adds |>.trans (List.range_eq_range' ..).symm

/-- The channels of all results decided so far. -/
theorem Ledger.decided_perm (h : Ledger adds sent b) :
    ((b.flushes.flatMap Flush.results).map Prod.fst).Perm
      ((b.flushes.flatMap fun f => f.batch.pendingBatch).map PendingTxn.resultChan) := by
  have hfaithful := h.faithful
  revert hfaithful
  generalize b.flushes = flushes
  intro hfaithful
  induction flushes with
  | nil => exact List.Perm.nil
  | cons f fs ih =>
    simp only [List.flatMap_cons, map_append]
    have hrest := ih fun g hg => hfaithful g (List.mem_cons_of_mem _ hg)
    exact (hfaithful f mem_cons_self).results_channels.append hrest

theorem pendings_eq (b : Batcher) :
    b.pendings = (b.flushes.flatMap fun f => f.batch.pendingBatch) ++
      b.batches.flatMap TxnBatch.pendingBatch := by
  rw [pendings, List.flatMap_append, List.flatMap_map]

section

variable (h : Ledger adds sent b)
include h

/-- The channels of the prepared batches come first, and none twice. -/
theorem Ledger.prepared_nodup :
    ((b.flushes.flatMap fun f => f.batch.pendingBatch).map PendingTxn.resultChan).Nodup ∧
    ∀ ch ∈ (b.flushes.flatMap fun f => f.batch.pendingBatch).map PendingTxn.resultChan,
      ch < adds.length := by
  have hall := h.channels
  rw [pendings_eq, map_append] at hall
  constructor
  · refine (List.nodup_range (n := adds.length)).sublist ?_
    rw [← hall]
    exact List.sublist_append_left _ _
  · intro ch hch
    rw [← List.mem_range, ← hall]
    exact mem_append_left _ hch

/-- No channel is decided twice. -/
theorem Ledger.decided_nodup : ((sent ++ b.undelivered).map Prod.fst).Nodup := by
  rw [← h.sends]
  exact h.decided_perm.nodup_iff.mpr h.prepared_nodup.1

/-- The decision on a channel is what was accepted. -/
theorem Ledger.success_iff {ch r : Nat} :
    (ch, ⟨r, true⟩) ∈ sent ++ b.undelivered ↔ ∃ t, (r, t) ∈ b.accepted ∧ t.resultChan = ch := by
  rw [← h.sends, mem_flatMap]
  constructor
  · rintro ⟨f, hf, hres⟩
    obtain ⟨t, ht, hch⟩ := (h.faithful f hf).mem_results_success.mp hres
    exact ⟨t, mem_flatMap.mpr ⟨f, hf, ht⟩, hch⟩
  · rintro ⟨t, ht, hch⟩
    obtain ⟨f, hf, haf⟩ := mem_flatMap.mp ht
    exact ⟨f, hf, (h.faithful f hf).mem_results_success.mpr ⟨t, haf, hch⟩⟩

/-- A channel has one decision. -/
theorem Ledger.decision_unique {ch : Nat} {res res' : BatchResult}
    (hres : (ch, res) ∈ sent ++ b.undelivered) (hres' : (ch, res') ∈ sent ++ b.undelivered) :
    res = res' :=
  congrArg Prod.snd (List.inj_on_of_nodup_map h.decided_nodup hres hres' rfl)

/-- A transaction that was refused was not accepted. -/
theorem Ledger.not_accepted {ch : Nat} {res : BatchResult}
    (hres : (ch, res) ∈ sent) (hfail : res.success = false) {a : Nat × PendingTxn}
    (ha : a ∈ b.accepted) : a.2.resultChan ≠ ch := by
  intro hch
  have hsuccess := h.success_iff.mpr ⟨a.2, ha, hch⟩
  have heq := h.decision_unique (mem_append_left _ hres) hsuccess
  rw [heq] at hfail
  cases hfail

end

/-- Acceptance keeps the order of the batches and of the transactions in them. -/
theorem accepted_channels_sublist {flushes : List Flush} (h : ∀ f ∈ flushes, f.Faithful) :
    ((flushes.flatMap Flush.accepted).map fun a => a.2.resultChan).Sublist
      ((flushes.flatMap fun f => f.batch.pendingBatch).map PendingTxn.resultChan) := by
  induction flushes with
  | nil => exact List.Sublist.refl _
  | cons f fs ih =>
    simp only [List.flatMap_cons, map_append]
    exact (h f mem_cons_self).accepted_channels.append
      (ih fun g hg => h g (List.mem_cons_of_mem _ hg))

section

variable (h : Ledger adds sent b)
include h

/-- The accepted transactions are in the order of their `Add` calls. -/
theorem Ledger.accepted_ascending : (b.accepted.map fun a => a.2.resultChan).Pairwise (· < ·) := by
  have hpre := h.channels
  rw [pendings_eq, map_append] at hpre
  have hasc : ((b.flushes.flatMap fun f => f.batch.pendingBatch).map
      PendingTxn.resultChan).Pairwise (· < ·) := by
    refine List.Pairwise.sublist ?_ (List.pairwise_lt_range (n := adds.length))
    rw [← hpre]
    exact List.sublist_append_left _ _
  exact hasc.sublist (accepted_channels_sublist h.faithful)

/-- An accepted transaction is an added one, its record under its revision. -/
theorem Ledger.record {r : Nat} {t : PendingTxn} (ht : (r, t) ∈ b.accepted) :
    ∃ a, adds[t.resultChan]? = some a ∧ t.logRecord = restamp r a.1 ∧ t.txnMeta = a.2 := by
  obtain ⟨f, hf, haf⟩ := mem_flatMap.mp ht
  obtain ⟨pre, t', post, hsplit, -, heq⟩ := (h.faithful f hf).mem_accepted.mp haf
  have hmem : t' ∈ b.pendings := by
    rw [pendings_eq]
    refine mem_append_left _ (mem_flatMap.mpr ⟨f, hf, ?_⟩)
    rw [hsplit]
    simp
  rw [h.pendings, List.mem_mapIdx] at hmem
  obtain ⟨i, hi, rfl⟩ := hmem
  simp only [Prod.mk.injEq] at heq
  obtain ⟨rfl, rfl⟩ := heq
  exact ⟨adds[i], List.getElem?_eq_getElem hi, rfl, rfl⟩

/-! ## Its steps -/

theorem Ledger.add (logRecord : LogRecord) (txnMeta : TxnMeta) :
    Ledger (adds ++ [(logRecord, txnMeta)]) sent (b.add logRecord txnMeta) := by
  obtain ⟨-, -, hflushes, hflusher, hresults, hadded⟩ := add_frame b logRecord txnMeta
  have hund : (b.add logRecord txnMeta).undelivered = b.undelivered := by
    rw [undelivered, undelivered, hflusher]
  have hnext : (adds ++ [(logRecord, txnMeta)]).mapIdx
      (fun i a => (⟨a.1, a.2, i⟩ : PendingTxn)) =
      (adds.mapIdx fun i a => ⟨a.1, a.2, i⟩) ++ [⟨logRecord, txnMeta, b.added⟩] := by
    rw [List.mapIdx_append, h.added]
    simp
  constructor
  · rw [hnext, ← h.pendings, pendings_eq, pendings_eq, hflushes, List.append_assoc]
    congr 1
    rcases batches_add b logRecord txnMeta with ⟨bs, last, hb, -, hb'⟩ | hb'
    · simp [hb, hb', TxnBatch.add]
    · simp [hb']
  · rw [hadded, h.added, List.length_append, List.length_singleton]
  · rw [hflushes]
    exact h.faithful
  · intro batch hbatch
    rcases batches_add b logRecord txnMeta with ⟨bs, last, hb, -, hb'⟩ | hb'
    · rw [hb'] at hbatch
      rcases mem_append.mp hbatch with hm | hm
      · exact h.waiting batch (hb ▸ mem_append_left _ hm)
      · obtain rfl : batch = _ := mem_singleton.mp hm
        exact h.waiting last (by simp [hb])
    · rw [hb'] at hbatch
      rcases mem_append.mp hbatch with hm | hm
      · exact h.waiting batch hm
      · obtain rfl : batch = _ := mem_singleton.mp hm
        rfl
  · rw [hflushes, hund]
    exact h.sends
  · rw [hresults]
    exact h.results

/-- A step that neither adds, flushes nor sends. -/
theorem Ledger.of_frame (hb : b'.batches = b.batches)
    (hf : b'.flushes = b.flushes) (ha : b'.added = b.added) (hr : b'.results = b.results)
    (hu : b'.undelivered = b.undelivered) : Ledger adds sent b' where
  pendings := by
    rw [Batcher.pendings, hb, hf]
    exact h.pendings
  added := ha.trans h.added
  faithful := hf ▸ h.faithful
  waiting := hb ▸ h.waiting
  sends := by
    rw [hf, hu]
    exact h.sends
  results := hr ▸ h.results

end

theorem pick_undelivered (h : b.pick = some b') : b'.undelivered = b.undelivered := by
  unfold pick at h
  split at h
  · next hf _ =>
    cases h
    simp [undelivered, hf]
  · next hf _ _ =>
    cases h
    simp [undelivered, hf]
  · next hf _ _ =>
    split at h
    · cases h
      simp [undelivered, hf]
    · cases h
  · cases h

theorem Ledger.pick (h : Ledger adds sent b) (hstep : b.pick = some b') : Ledger adds sent b' := by
  obtain ⟨hb, -, -, hf, hr, ha⟩ := pick_frame hstep
  exact h.of_frame hb hf ha hr (pick_undelivered hstep)

theorem Ledger.close (h : Ledger adds sent b) : Ledger adds sent b.close :=
  h.of_frame rfl rfl rfl rfl rfl

theorem Ledger.flush (h : Ledger adds sent b)
    (hstep : b.flush = some (b', commit)) : Ledger adds sent b' := by
  have hnone : b.undelivered = [] := by
    unfold Batcher.flush at hstep
    split at hstep
    · next hf => simp [undelivered, hf]
    · cases hstep
  obtain ⟨batch, hb, hcommit, -, -, hf, hdel, hr, ha⟩ := flush_spec hstep
  constructor
  · rw [← h.pendings, Batcher.pendings, Batcher.pendings, hf, hb]
    simp
  · exact ha.trans h.added
  · intro f hfmem
    rw [hf] at hfmem
    rcases mem_append.mp hfmem with hm | hm
    · exact h.faithful f hm
    · obtain rfl : f = _ := mem_singleton.mp hm
      exact ⟨h.waiting batch (by simp [hb]), hcommit⟩
  · exact fun x hx => h.waiting x (by simp [hb, hx])
  · rw [hf, List.flatMap_append, List.flatMap_singleton, h.sends, hnone, append_nil,
      undelivered, hdel]
    rfl
  · exact hr ▸ h.results

variable {r : Nat × BatchResult}

/-- One send moves a result from the undelivered ones to the sent ones. -/
theorem sendNext_spec (h : b.sendNext = some (b', r)) :
    ∃ rest, b.undelivered = r :: rest ∧ b'.undelivered = rest ∧
      b' = { b with flusher := .delivering rest, results := b.results.insert r.1 r.2 } := by
  unfold sendNext at h
  split at h
  · next rest hf =>
    cases h
    exact ⟨rest, by simp [undelivered, hf], rfl, rfl⟩
  · cases h

theorem sendNext_batches (h : b.sendNext = some (b', r)) : b'.batches = b.batches := by
  unfold sendNext at h
  split at h
  · next hf =>
    cases h
    simp [batches, inHand, hf]
  · cases h

theorem Ledger.send (h : Ledger adds sent b)
    (hstep : b.sendNext = some (b', r)) : Ledger adds (sent ++ [r]) b' := by
  have hb := sendNext_batches hstep
  obtain ⟨rest, hund, hund', heq⟩ := sendNext_spec hstep
  have hf : b'.flushes = b.flushes := by rw [heq]
  have hnodup := h.decided_nodup
  rw [hund, map_append, map_cons, List.nodup_append'] at hnodup
  -- Nothing was sent on this channel before.
  have hfirst : ∀ res, (r.1, res) ∉ sent := fun res hmem =>
    hnodup.2.2 (List.mem_map_of_mem hmem) mem_cons_self
  constructor
  · rw [Batcher.pendings, hb, hf]
    exact h.pendings
  · rw [heq]
    exact h.added
  · exact hf ▸ h.faithful
  · exact hb ▸ h.waiting
  · rw [hf, hund', h.sends, hund]
    simp
  · intro ch res
    rw [heq, mem_append, mem_singleton]
    show (b.results.insert r.1 r.2).lookup ch = some res ↔ _
    by_cases hch : ch = r.1
    · subst hch
      rw [AList.lookup_insert, Option.some.injEq]
      constructor
      · rintro rfl
        exact Or.inr rfl
      · rintro (hmem | hmem)
        · exact absurd hmem (hfirst res)
        · rw [← hmem]
    · rw [AList.lookup_insert_ne hch, h.results]
      constructor
      · exact Or.inl
      · rintro (hmem | hmem)
        · exact hmem
        · exact absurd (congrArg Prod.fst hmem) hch

theorem finish_spec (h : b.finish = some b') :
    b.flusher = .delivering [] ∧ b' = { b with flusher := .idle } := by
  unfold finish at h
  split at h
  · next hf =>
    cases h
    exact ⟨hf, rfl⟩
  · cases h

theorem Ledger.finish (h : Ledger adds sent b) (hstep : b.finish = some b') :
    Ledger adds sent b' := by
  obtain ⟨hf, rfl⟩ := finish_spec hstep
  refine h.of_frame ?_ rfl rfl rfl ?_
  · simp [batches, inHand, hf]
  · simp [undelivered, hf]

/-- The delivery of all results at once is the sends in order. -/
theorem Ledger.deliver (h : Ledger adds sent b) (hstep : b.deliver = some b') :
    Ledger adds (sent ++ b.undelivered) b' := by
  unfold Batcher.deliver at hstep
  split at hstep
  · next results hf =>
    cases hstep
    induction results generalizing b sent with
    | nil =>
      have hnext : Ledger adds sent { b with flusher := .idle } :=
        h.finish (by simp [Batcher.finish, hf])
      simpa [undelivered, hf] using hnext
    | cons r rest ih =>
      have hsend : Ledger adds (sent ++ [r])
          { b with flusher := .delivering rest, results := b.results.insert r.1 r.2 } :=
        h.send (by simp [sendNext, hf])
      have hrest := ih hsend rfl
      simpa [undelivered, hf] using hrest
  · cases hstep

end Batcher

/-! ## Runs -/

namespace GroupCommit

/-- What group commit promises, for a start at position `p0`. -/
structure Exact (p0 : Nat) (g : GroupCommit) : Prop where
  /-- The batches, in the order in which they were opened, hold the calls in order. -/
  inOrder : (g.batcher.flushes.map Flush.batch ++ g.batcher.batches).flatMap
    TxnBatch.pendingBatch = g.adds.mapIdx fun i a => ⟨a.1, a.2, i⟩
  preparedOnce : ((g.batcher.flushes.flatMap fun f => f.batch.pendingBatch).map
    PendingTxn.resultChan).Nodup
  sentOnce : (g.sent.map Prod.fst).Nodup
  sentToAdded : ∀ s ∈ g.sent, s.1 < g.adds.length
  answered : g.batcher.flusher = .exited → ∀ ch < g.adds.length, ∃ res, (ch, res) ∈ g.sent
  success_iff : ∀ ch res, (ch, res) ∈ g.sent → ∀ r,
    (res = ⟨r, true⟩ ↔ ∃ t, (r, t) ∈ g.handed ∧ t.resultChan = ch)
  /-- What is handed over is the added record under its revision. -/
  record : ∀ r t, (r, t) ∈ g.handed → ∃ a, g.adds[t.resultChan]? = some a ∧
    t.logRecord = restamp r a.1 ∧ t.txnMeta = a.2
  contiguous : g.handed.map Prod.fst = List.range' (p0 + 1) g.handed.length
  ascending : (g.handed.map fun a => a.2.resultChan).Pairwise (· < ·)
  rejected : ∀ s ∈ g.sent, s.2.success = false → ∀ a ∈ g.handed, a.2.resultChan ≠ s.1

/-- The invariant of a run. -/
structure Inv (p0 : Nat) (g : GroupCommit) : Prop where
  ledger : g.batcher.Ledger g.adds g.sent
  batcher : g.batcher.Inv p0
  handed : g.handed = g.batcher.accepted
  left : g.batcher.flusher = .exited → g.batcher.batches = [] ∧ g.batcher.stop = true

variable {p0 : Nat} {g g' : GroupCommit}

theorem Inv.new (p0 : Nat) : Inv p0 (new p0) where
  ledger := Batcher.Ledger.new p0
  batcher := Batcher.Inv.new p0
  handed := rfl
  left := nofun

/-- Transactions numbered in order get the revisions they were assigned. -/
theorem handOver_eq {position : Nat}
    (h : commit.map Prod.fst = List.range' (position + 1) commit.length) :
    handOver position (commit.map Prod.snd) = commit := by
  apply List.ext_getElem
  · simp [handOver]
  · intro i h1 h2
    have hi : (commit.map Prod.fst)[i]? = (List.range' (position + 1) commit.length)[i]? := by
      rw [h]
    rw [List.getElem?_map, List.getElem?_eq_getElem h2, List.getElem?_range' h2] at hi
    simp only [Option.map_some, Option.some.injEq, Nat.one_mul] at hi
    simp [handOver, ← hi]

/-- The flusher has left only when nothing was waiting. -/
theorem left_pick {b b' : Batcher} (h : b.pick = some b') (hexit : b'.flusher = .exited) :
    b'.batches = [] ∧ b'.stop = true := by
  unfold pick at h
  split at h
  · cases h
    cases hexit
  · cases h
    cases hexit
  · next hf hq ho =>
    split at h
    · next hstop =>
      cases h
      exact ⟨by simp [batches, inHand, hq, ho], hstop⟩
    · cases h
  · cases h

/-- Every step keeps the invariant. -/
theorem Inv.step (g : GroupCommit) (a : Action) (g' : GroupCommit) (h : Inv p0 g)
    (hstep : g.step a = some g') : Inv p0 g' := by
  cases a with
  | add logRecord txnMeta =>
    simp only [GroupCommit.step] at hstep
    split at hstep
    · cases hstep
    · next hstop =>
      cases hstep
      obtain ⟨-, -, hf, hflusher, -, -⟩ := add_frame g.batcher logRecord txnMeta
      refine ⟨h.ledger.add _ _, h.batcher.add _ _, h.handed.trans ?_, fun hexit => ?_⟩
      · exact (accepted_eq hf).symm
      · exact absurd (h.left (hflusher ▸ hexit)).2 hstop
  | pick =>
    obtain ⟨b, hb, rfl⟩ := Option.map_eq_some_iff.mp hstep
    obtain ⟨-, -, -, hf, -, -⟩ := pick_frame hb
    refine ⟨h.ledger.pick hb, h.batcher.pick hb, h.handed.trans ?_, left_pick hb⟩
    exact (accepted_eq hf).symm
  | flush =>
    obtain ⟨⟨b, commit⟩, hb, rfl⟩ := Option.map_eq_some_iff.mp hstep
    obtain ⟨batch, -, -, -, -, -, hdel, -, -⟩ := flush_spec hb
    refine ⟨h.ledger.flush hb, h.batcher.flush hb, ?_, fun hexit => ?_⟩
    · show g.handed ++ handOver g.batcher.lastLogPosition (commit.map Prod.snd) = b.accepted
      rw [flush_accepted hb, handOver_eq (h.batcher.flush_revisions hb), h.handed]
    · exact absurd (hdel.symm.trans hexit) nofun
  | send =>
    obtain ⟨⟨b, r⟩, hb, rfl⟩ := Option.map_eq_some_iff.mp hstep
    have hbatches := sendNext_batches hb
    have hledger := h.ledger.send hb
    obtain ⟨rest, -, -, rfl⟩ := sendNext_spec hb
    refine ⟨hledger, ?_, h.handed, nofun⟩
    exact h.batcher.of_frame rfl rfl rfl (hbatches ▸ h.batcher.waiting)
  | finish =>
    obtain ⟨b, hb, rfl⟩ := Option.map_eq_some_iff.mp hstep
    have hledger := h.ledger.finish hb
    obtain ⟨hf, rfl⟩ := finish_spec hb
    refine ⟨hledger, h.batcher.of_frame rfl rfl rfl fun batch hbatch => ?_, h.handed, nofun⟩
    apply h.batcher.waiting
    simpa [batches, inHand, hf] using hbatch
  | close =>
    cases hstep
    exact ⟨h.ledger.close, h.batcher.close, h.handed, fun hexit => ⟨(h.left hexit).1, rfl⟩⟩

theorem Inv.exact (h : Inv p0 g) : Exact p0 g where
  inOrder := h.ledger.pendings
  preparedOnce := h.ledger.prepared_nodup.1
  sentOnce := by
    have hnodup := h.ledger.decided_nodup
    rw [map_append] at hnodup
    exact hnodup.of_append_left
  sentToAdded s hs := by
    have hmem : s.1 ∈ (g.batcher.flushes.flatMap Flush.results).map Prod.fst := by
      rw [h.ledger.sends]
      exact List.mem_map_of_mem (mem_append_left _ hs)
    exact h.ledger.prepared_nodup.2 _ (h.ledger.decided_perm.mem_iff.mp hmem)
  answered hexit ch hch := by
    have hnone : g.batcher.undelivered = [] := by rw [undelivered, hexit]
    have hall := h.ledger.channels
    rw [pendings_eq, (h.left hexit).1, List.flatMap_nil, append_nil] at hall
    rw [← List.mem_range, ← hall, ← h.ledger.decided_perm.mem_iff, h.ledger.sends, hnone,
      append_nil] at hch
    obtain ⟨⟨ch', res⟩, hmem, rfl⟩ := mem_map.mp hch
    exact ⟨res, hmem⟩
  success_iff ch res hres r := by
    rw [h.handed, ← h.ledger.success_iff]
    constructor
    · rintro rfl
      exact mem_append_left _ hres
    · exact h.ledger.decision_unique (mem_append_left _ hres)
  record r t ht := h.ledger.record (h.handed ▸ ht)
  contiguous := by
    rw [h.handed]
    exact h.batcher.commits.revisions
  ascending := by
    rw [h.handed]
    exact h.ledger.accepted_ascending
  rejected s hs hfail a ha := h.ledger.not_accepted hs hfail (h.handed ▸ ha)

/-! ## The flusher leaves -/

/-- The flusher's own steps. -/
def Action.IsFlusher : Action → Prop
  | .pick | .flush | .send | .finish => True
  | .add _ _ | .close => False

/-- The flusher, by its own steps, gets to a state in which it has left. -/
def Leaves (g : GroupCommit) : Prop :=
  ∃ actions g', (∀ a ∈ actions, a.IsFlusher) ∧ Transition.run step g actions = some g' ∧
    g'.batcher.flusher = .exited

theorem Leaves.of_step {a : Action} (ha : a.IsFlusher) (hstep : g.step a = some g')
    (h : g'.Leaves) : g.Leaves := by
  obtain ⟨actions, g'', hall, hrun, hexit⟩ := h
  refine ⟨a :: actions, g'', ?_, Transition.run_cons_eq_some.mpr ⟨g', hstep, hrun⟩, hexit⟩
  exact List.forall_mem_cons.mpr ⟨ha, hall⟩

/-- How far the flusher is from preparing its next batch. -/
def toNextBatch : Flusher → Nat
  | .delivering results => results.length + 2
  | .idle => 1
  | .holding _ => 0
  | .exited => 0

/-- A stopped flusher that has not left can take a step that brings it nearer to the end. -/
theorem exists_flusher_step (hstop : g.batcher.stop = true) (hf : g.batcher.flusher ≠ .exited) :
    ∃ a g', a.IsFlusher ∧ g.step a = some g' ∧ g'.batcher.stop = true ∧
      (g'.batcher.flusher = .exited ∨
        g'.batcher.batches.length < g.batcher.batches.length ∨
        g'.batcher.batches.length = g.batcher.batches.length ∧
          toNextBatch g'.batcher.flusher < toNextBatch g.batcher.flusher) := by
  cases hfl : g.batcher.flusher with
  | exited => exact absurd hfl hf
  | idle =>
    obtain ⟨b, hb, hstop', hnext⟩ : ∃ b, g.batcher.pick = some b ∧ b.stop = true ∧
        (b.flusher = .exited ∨ ∃ batch, b.flusher = .holding batch) := by
      unfold pick
      rw [hfl]
      cases hq : g.batcher.flushQueue with
      | cons batch queue => exact ⟨_, rfl, hstop, Or.inr ⟨batch, rfl⟩⟩
      | nil =>
        cases ho : g.batcher.openBatch with
        | some batch => exact ⟨_, rfl, hstop, Or.inr ⟨batch, rfl⟩⟩
        | none => exact ⟨_, if_pos hstop, hstop, Or.inl rfl⟩
    refine ⟨.pick, _, trivial, Option.map_eq_some_iff.mpr ⟨b, hb, rfl⟩, hstop', ?_⟩
    rcases hnext with hexit | ⟨batch, hhold⟩
    · exact Or.inl hexit
    · refine Or.inr (Or.inr ⟨congrArg List.length (pick_frame hb).1, ?_⟩)
      show toNextBatch b.flusher < 1
      rw [hhold]
      exact Nat.one_pos
  | holding batch =>
    obtain ⟨⟨b, commit⟩, hb⟩ : ∃ r, g.batcher.flush = some r := by
      unfold flush
      rw [hfl]
      exact ⟨_, rfl⟩
    obtain ⟨batch', hbatches, -⟩ := flush_spec hb
    have hkept : b.stop = g.batcher.stop := by
      simp only [flush, hfl, Option.some.injEq, Prod.mk.injEq] at hb
      rw [← hb.1]
    refine ⟨.flush, _, trivial, Option.map_eq_some_iff.mpr ⟨_, hb, rfl⟩,
      hkept.trans hstop, Or.inr (Or.inl ?_)⟩
    rw [hbatches]
    exact Nat.lt_succ_self _
  | delivering results =>
    cases results with
    | nil =>
      refine ⟨.finish, { g with batcher := { g.batcher with flusher := .idle } }, trivial,
        ?_, hstop, Or.inr (Or.inr ⟨?_, ?_⟩)⟩
      · simp [step, finish, hfl]
      · simp [batches, inHand, hfl]
      · exact Nat.one_lt_two
    | cons r rest =>
      obtain ⟨⟨b, r'⟩, hb⟩ : ∃ x, g.batcher.sendNext = some x := by
        unfold sendNext
        rw [hfl]
        exact ⟨_, rfl⟩
      have hbatches := sendNext_batches hb
      obtain ⟨rest', hund, -, rfl⟩ := sendNext_spec hb
      obtain rfl : rest = rest' := by
        simp only [undelivered, hfl, List.cons.injEq] at hund
        exact hund.2
      refine ⟨.send, _, trivial, Option.map_eq_some_iff.mpr ⟨_, hb, rfl⟩, hstop,
        Or.inr (Or.inr ⟨congrArg List.length hbatches, ?_⟩)⟩
      exact Nat.lt_succ_self _

/-- A stopped flusher leaves, by its own steps. -/
theorem leaves_of_stop (g : GroupCommit) (hstop : g.batcher.stop = true) : g.Leaves := by
  by_cases hf : g.batcher.flusher = .exited
  · exact ⟨[], g, by simp, rfl, hf⟩
  · obtain ⟨a, g', ha, hstep, hstop', hnearer⟩ := exists_flusher_step hstop hf
    refine Leaves.of_step ha hstep ?_
    by_cases hexit : g'.batcher.flusher = .exited
    · exact ⟨[], g', by simp, rfl, hexit⟩
    · have hdec : Prod.Lex (· < ·) (· < ·)
          (g'.batcher.batches.length, toNextBatch g'.batcher.flusher)
          (g.batcher.batches.length, toNextBatch g.batcher.flusher) :=
        Prod.lex_def.mpr (hnearer.resolve_left hexit)
      exact leaves_of_stop g' hstop'
termination_by (g.batcher.batches.length, toNextBatch g.batcher.flusher)
decreasing_by exact hdec

end GroupCommit

end CloudEtcd
