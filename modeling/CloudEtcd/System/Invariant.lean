/-
# CloudEtcd.System.Invariant — what holds in every state of a process.

`System.Core` ties the parts together: the store's own agreement of index, log and history; the
batcher's record of what it accepted; that the history is what the process started with and then
the accepted transactions; what each `Txn` call and each transaction in a batch still relies on
(`EvalInv`: it was evaluated at an earlier state of this store, at a snapshot not below the start);
and the invariant of the running log compaction.  Every action keeps it (`Core.step`), whatever is
requested.

`System.Inv` is the same for requests and records that write no key twice.
-/
import CloudEtcd.System.AnyRequests

namespace CloudEtcd

open Batcher

open History

/-! ## What a transaction in flight relies on -/

/-- The transaction is one that may be requested, and was evaluated at an earlier state of the store, at
a snapshot that was applied and is not below the head at the start of the process. -/
structure EvalInv (R : TxnRequest → Prop) (p0 : Nat) (store : Store) (req : TxnRequest)
    (ev : Evaluation) : Prop where
  allowed : R req
  then_held : ev.store.Held
  later : ev.store.Later store
  start_le : p0 ≤ ev.txn.snapshotTimestamp
  applied : ev.txn.snapshotTimestamp ≤ ev.store.mem.applied
  evaluated : ev.store.mem.evaluate ev.store.log.read req ev.txn.snapshotTimestamp =
    .ok (ev.resp, ev.txn)

/-- What a `Txn` call relies on. -/
def ClientInv (R : TxnRequest → Prop) (p0 : Nat) (store : Store) (c : Client) : Prop :=
  R c.req ∧
  match c.phase with
  | .begin => True
  | .snapshot head => p0 ≤ head ∧ head ≤ store.log.lastRevision
  | .ready s => p0 ≤ s ∧ s ≤ store.mem.applied
  | .evaluated ev => EvalInv R p0 store c.req ev
  | .waiting ev _ => EvalInv R p0 store c.req ev
  | .committed ev _ => EvalInv R p0 store c.req ev
  | .done _ => True

variable {req : TxnRequest} {R : TxnRequest → Prop}

theorem EvalInv.mono {p0 : Nat} {store store' : Store} {ev : Evaluation}
    (h : EvalInv R p0 store req ev) (hlater : store.Later store') : EvalInv R p0 store' req ev :=
  { h with later := h.later.trans hlater }

theorem ClientInv.mono {p0 : Nat} {store store' : Store} {c : Client} (h : ClientInv R p0 store c)
    (hlater : store.Later store') : ClientInv R p0 store' c := by
  obtain ⟨req, attempt, phase⟩ := c
  obtain ⟨hw, hphase⟩ := h
  refine ⟨hw, ?_⟩
  cases phase with
  | begin => trivial
  | snapshot head => exact ⟨hphase.1, hphase.2.trans hlater.head⟩
  | ready s => exact ⟨hphase.1, hphase.2.trans hlater.applied⟩
  | evaluated | waiting | committed => exact hphase.mono hlater
  | done => trivial

/-- The keys of a staged record are distinct. -/
theorem EvalInv.distinct {p0 : Nat} {store : Store} {ev : Evaluation}
    (h : EvalInv TxnRequest.WritesOnce p0 store req ev) :
    (ev.txn.logEvents.map (·.kv.key)).Nodup := by
  apply List.Nodup.sublist (MemoryStorage.evaluate_spec h.evaluated).writesSub
  cases ev.resp.succeeded with
  | true => exact h.allowed.1
  | false => exact h.allowed.2

/-- If no record writes a key twice, neither did those that the evaluation saw. -/
theorem EvalInv.then_inv {p0 : Nat} {store : Store} {ev : Evaluation}
    (h : EvalInv R p0 store req ev) (hw : WellFormed store.history) : ev.store.Inv := by
  obtain ⟨new, hnew, -⟩ := h.later.history
  exact ⟨h.then_held, (hnew ▸ hw).sublist (List.sublist_append_left _ _)⟩

/-! ## Where the transactions in batches come from -/

/-- The transaction in a batch was staged by the submission under its result channel. -/
structure Submitted (subs : List Submission) (t : PendingTxn) (sub : Submission) : Prop where
  found : subs[t.resultChan]? = some sub
  txnMeta : t.txnMeta = sub.ev.txn.txnMeta
  logRecord : t.logRecord = ⟨sub.ev.txn.logEvents⟩

/-- The accepted transaction was staged by the submission and committed, under its revision, after
the submission was evaluated. -/
structure Committed (subs : List Submission) (a : Nat × PendingTxn) (sub : Submission) : Prop where
  found : subs[a.2.resultChan]? = some sub
  txnMeta : a.2.txnMeta = sub.ev.txn.txnMeta
  logRecord : a.2.logRecord = restamp a.1 ⟨sub.ev.txn.logEvents⟩
  after : sub.ev.store.log.lastRevision < a.1

section Submissions

variable {subs : List Submission} {sub : Submission}

theorem getElem?_append_of_eq_some {n : Nat} (h : subs[n]? = some sub) (new : List Submission) :
    (subs ++ new)[n]? = some sub := by
  rw [List.getElem?_append_left (List.getElem?_eq_some_iff.mp h).1]
  exact h

theorem Submitted.append {t : PendingTxn} (h : Submitted subs t sub) (new : List Submission) :
    Submitted (subs ++ new) t sub :=
  { h with found := getElem?_append_of_eq_some h.found new }

theorem Committed.append {a : Nat × PendingTxn} (h : Committed subs a sub)
    (new : List Submission) : Committed (subs ++ new) a sub :=
  { h with found := getElem?_append_of_eq_some h.found new }

/-- Re-stamping leaves the keys alone. -/
theorem restamp_keys (r : Nat) (x : LogRecord) :
    (restamp r x).events.map (·.kv.key) = x.events.map (·.kv.key) := by
  simp only [restamp, List.map_map]
  refine List.map_congr_left fun e _ => ?_
  cases htype : e.type <;> simp [restampEvent, htype]

end Submissions

/-! ## The system -/

namespace System

/-- The invariant of a process that started with the history `base` and the head `p0` and takes the
requests that `R` allows. -/
structure Core (R : TxnRequest → Prop) (base : LogHistory) (p0 : Nat) (sys : System) : Prop extends
    Bare sys where
  batcher : sys.batcher.Inv p0
  position : sys.batcher.lastLogPosition = sys.store.log.lastRevision
  history : sys.store.history =
    base ++ sys.batcher.accepted.map fun a => (a.1, a.2.logRecord)
  clients : ∀ c ∈ sys.clients, ClientInv R p0 sys.store c
  submissions : ∀ sub ∈ sys.submissions, EvalInv R p0 sys.store sub.req sub.ev
  added : sys.batcher.added = sys.submissions.length
  waiting : ∀ batch ∈ sys.batcher.batches, ∀ t ∈ batch.pendingBatch,
    ∃ sub, Submitted sys.submissions t sub
  accepted : ∀ a ∈ sys.batcher.accepted, ∃ sub, Committed sys.submissions a sub

/-- The same for requests and records that write no key twice. -/
structure Inv (base : LogHistory) (p0 : Nat) (sys : System) : Prop extends
    Core TxnRequest.WritesOnce base p0 sys where
  distinct : ∀ p ∈ base, (p.2.events.map (·.kv.key)).Nodup

variable {base : LogHistory} {p0 : Nat} {sys : System}
variable {c : Client} {b : Batcher} {i : Nat} {sys' : System}

section

variable (h : Core R base p0 sys)
include h

/-- The store moves on without a commit. -/
theorem Core.withStore (hbare : Bare sys')
    (hlater : sys.store.Later sys'.store) (hhist : sys'.store.history = sys.store.history)
    (hhead : sys'.store.log.lastRevision = sys.store.log.lastRevision)
    (hbatcher : sys'.batcher = sys.batcher) (hclients : sys'.clients = sys.clients)
    (hsubs : sys'.submissions = sys.submissions) : Core R base p0 sys' where
  toBare := hbare
  batcher := hbatcher ▸ h.batcher
  position := hbatcher ▸ h.position.trans hhead.symm
  history := hbatcher ▸ hhist.trans h.history
  clients c hc := (h.clients c (hclients ▸ hc)).mono hlater
  submissions sub hsub := (h.submissions sub (hsubs ▸ hsub)).mono hlater
  added := hbatcher ▸ hsubs ▸ h.added
  waiting := hbatcher ▸ hsubs ▸ h.waiting
  accepted := hbatcher ▸ hsubs ▸ h.accepted

/-- A call moves to a phase that it may be in. -/
theorem Core.setPhase (i : Nat) {phase : Phase}
    (hc : ClientInv R p0 sys.store { c with phase := phase }) :
    Core R base p0 (sys.setPhase i c phase) :=
  { h with
    clients := by
      intro c' hc'
      rcases List.mem_or_eq_of_mem_set hc' with hc' | rfl
      · exact h.clients c' hc'
      · exact hc }

/-- A step of the batcher that adds and commits nothing. -/
theorem Core.withBatcher (hinv : b.Inv p0)
    (hposition : b.lastLogPosition = sys.batcher.lastLogPosition)
    (hflushes : b.flushes = sys.batcher.flushes) (hadded : b.added = sys.batcher.added)
    (hbatches : b.batches = sys.batcher.batches) :
    Core R base p0 { sys with batcher := b } where
  toBare := { h.toBare with }
  batcher := hinv
  position := hposition.trans h.position
  history := by
    rw [accepted_eq hflushes]
    exact h.history
  clients := h.clients
  submissions := h.submissions
  added := hadded.trans h.added
  waiting := hbatches ▸ h.waiting
  accepted := by
    rw [accepted_eq hflushes]
    exact h.accepted

/-! ## Steps of a `Txn` call -/

theorem Core.client (hc : sys.clients[i]? = some c) : ClientInv R p0 sys.store c :=
  h.clients c (List.mem_of_getElem? hc)

theorem Core.head_ge : p0 ≤ sys.store.log.lastRevision := by
  rw [← h.position, h.batcher.commits.position_eq]
  exact Nat.le_add_right _ _

theorem Core.readHead (hc : sys.clients[i]? = some c) (hstep : sys.readHead i c = some sys') :
    Core R base p0 sys' := by
  unfold System.readHead at hstep
  split at hstep
  · cases hstep
    exact h.setPhase i ⟨(h.client hc).1, h.head_ge, le_rfl⟩
  · cases hstep

theorem Core.applyUpTo (env : LeaseEnv) (fails : Nat → Bool) (rev : Nat) :
    Core R base p0 { sys with store := (sys.store.applyUpTo env fails rev).1 } := by
  have hlater := Store.Later.applyUpTo h.held.compacted_le env fails rev
  have hbare : Bare { sys with store := (sys.store.applyUpTo env fails rev).1 } :=
    h.toBare.withStore (h.held.applyUpTo env fails rev) hlater ⟨[], by simp [Store.applyUpTo]⟩
      (fun _ => Or.inl) rfl
  exact h.withStore hbare hlater rfl rfl rfl rfl rfl

theorem Core.apply {env : LeaseEnv} {fails : Nat → Bool} (hc : sys.clients[i]? = some c)
    (hstep : sys.apply i c env fails = some sys') : Core R base p0 sys' := by
  obtain ⟨hw, hphase⟩ := h.client hc
  unfold System.apply at hstep
  split at hstep
  · next head hp =>
    rw [hp] at hphase
    have hnext := h.applyUpTo env fails head
    dsimp only at hstep
    split at hstep
    · next hok =>
      cases hstep
      exact hnext.setPhase i ⟨hw, hphase.1, Store.applied_of_applyUpTo hok⟩
    · cases hstep
      exact hnext.setPhase i ⟨hw, trivial⟩
  · next ev revision hp =>
    have hnext := h.applyUpTo env fails revision
    dsimp only at hstep
    split at hstep
    · cases hstep
      exact hnext.setPhase i ⟨hw, trivial⟩
    · cases hstep
      exact hnext.setPhase i ⟨hw, trivial⟩
  · cases hstep

end

/-- The evaluation of a transaction, as it is kept in its phase. -/
theorem EvalInv.of_evaluate {store : Store} {s : Nat} {resp : TxnResponse} {txn : Txn}
    (hheld : store.Held) (hw : R req) (hs : p0 ≤ s) (happlied : s ≤ store.mem.applied)
    (heval : store.mem.evaluate store.log.read req s = .ok (resp, txn)) :
    EvalInv R p0 store req ⟨store, resp, txn⟩ := by
  have hsnap : txn.snapshotTimestamp = s := (MemoryStorage.evaluate_spec heval).staged.snapshot
  refine ⟨hw, hheld, Store.Later.refl _, ?_, ?_, ?_⟩
  · rw [hsnap]
    exact hs
  · rw [hsnap]
    exact happlied
  · rw [hsnap]
    exact heval

section

variable (h : Core R base p0 sys)
include h

theorem Core.evaluate (hc : sys.clients[i]? = some c) (hstep : sys.evaluate i c = some sys') :
    Core R base p0 sys' := by
  obtain ⟨hw, hphase⟩ := h.client hc
  unfold System.evaluate at hstep
  split at hstep
  · next s hp =>
    rw [hp] at hphase
    split at hstep
    · next resp txn heval =>
      cases hstep
      exact h.setPhase i
        ⟨hw, EvalInv.of_evaluate h.held hw hphase.1 hphase.2 heval⟩
    · cases hstep
      exact { h with }
    · cases hstep
      exact h.setPhase i ⟨hw, trivial⟩
  · cases hstep

/-- The transactions in the batches after one more has joined. -/
theorem Core.waiting_add (sub : Submission) :
    ∀ batch ∈ (sys.batcher.add ⟨sub.ev.txn.logEvents⟩ sub.ev.txn.txnMeta).batches,
      ∀ t ∈ batch.pendingBatch, ∃ sub', Submitted (sys.submissions ++ [sub]) t sub' := by
  have hold : ∀ batch ∈ sys.batcher.batches, ∀ t ∈ batch.pendingBatch,
      ∃ sub', Submitted (sys.submissions ++ [sub]) t sub' := by
    intro batch hbatch t ht
    obtain ⟨sub', hsub⟩ := h.waiting batch hbatch t ht
    exact ⟨sub', hsub.append _⟩
  -- The new one is found under the channel it was given.
  have hnew : Submitted (sys.submissions ++ [sub])
      ⟨⟨sub.ev.txn.logEvents⟩, sub.ev.txn.txnMeta, sys.batcher.added⟩ sub := by
    refine ⟨?_, rfl, rfl⟩
    rw [h.added]
    simp
  intro batch hbatch t ht
  rcases batches_add sys.batcher ⟨sub.ev.txn.logEvents⟩ sub.ev.txn.txnMeta with
    ⟨bs, last, hb, -, hb'⟩ | hb'
  · rw [hb'] at hbatch
    rcases List.mem_append.mp hbatch with hm | hm
    · exact hold batch (hb ▸ List.mem_append_left _ hm) t ht
    · obtain rfl := List.mem_singleton.mp hm
      rcases List.mem_append.mp ht with ht | ht
      · exact hold last (by simp [hb]) t ht
      · obtain rfl := List.mem_singleton.mp ht
        exact ⟨sub, hnew⟩
  · rw [hb'] at hbatch
    rcases List.mem_append.mp hbatch with hm | hm
    · exact hold batch hm t ht
    · obtain rfl := List.mem_singleton.mp hm
      obtain rfl := List.mem_singleton.mp ht
      exact ⟨sub, hnew⟩

theorem Core.append (hc : sys.clients[i]? = some c) (hstep : sys.append i c = some sys') :
    Core R base p0 sys' := by
  obtain ⟨hw, hphase⟩ := h.client hc
  unfold System.append at hstep
  split at hstep
  · next ev hp =>
    rw [hp] at hphase
    split at hstep
    · cases hstep
      exact h.setPhase i ⟨hw, trivial⟩
    · cases hstep
      obtain ⟨hpos, hcw, hfl, -, -, hadd⟩ :=
        add_frame sys.batcher ⟨ev.txn.logEvents⟩ ev.txn.txnMeta
      have hclients := (@Core.setPhase R base p0 sys c h i (.waiting ev sys.batcher.added)
        ⟨hw, hphase⟩).clients
      refine ⟨{ h.toBare with }, h.batcher.add _ _, hpos.trans h.position, ?_, hclients, ?_, ?_,
        h.waiting_add ⟨c.req, ev⟩, ?_⟩
      · exact (accepted_eq hfl).symm ▸ h.history
      · intro sub hsub
        rcases List.mem_append.mp hsub with hsub | hsub
        · exact h.submissions sub hsub
        · obtain rfl := List.mem_singleton.mp hsub
          exact hphase
      · rw [List.length_append, ← h.added]
        exact hadd
      · intro a ha
        rw [accepted_eq hfl] at ha
        obtain ⟨sub, hsub⟩ := h.accepted a ha
        exact ⟨sub, hsub.append _⟩
  · cases hstep

theorem Core.receive (hc : sys.clients[i]? = some c) (hstep : sys.receive i c = some sys') :
    Core R base p0 sys' := by
  obtain ⟨hw, hphase⟩ := h.client hc
  unfold System.receive at hstep
  split at hstep
  · next ev ch hp =>
    rw [hp] at hphase
    split at hstep
    · cases hstep
    · split at hstep
      · cases hstep
        exact h.setPhase i ⟨hw, hphase⟩
      · cases hstep
        by_cases hlt : c.attempt + 1 < maxTxnAttempts
        · rw [if_pos hlt]
          exact h.setPhase i (c := { c with attempt := c.attempt + 1 }) ⟨hw, trivial⟩
        · rw [if_neg hlt]
          exact h.setPhase i (c := { c with attempt := c.attempt + 1 }) ⟨hw, trivial⟩
  · cases hstep

theorem Core.abandon (hc : sys.clients[i]? = some c) (hstep : sys.abandon i c = some sys') :
    Core R base p0 sys' := by
  obtain ⟨hw, -⟩ := h.client hc
  unfold System.abandon at hstep
  split at hstep
  · cases hstep
    exact h.setPhase i ⟨hw, trivial⟩
  · cases hstep

end

/-! ## Steps of the flusher -/

variable {commit : List (Nat × PendingTxn)}

/-- Records numbered in order get the revisions they were assigned. -/
theorem numberFrom_eq_map {first : Nat}
    (h : commit.map Prod.fst = List.range' first commit.length) :
    numberFrom first (commit.map (·.2.logRecord)) =
      commit.map fun a => (a.1, a.2.logRecord) := by
  induction commit generalizing first with
  | nil => rfl
  | cons a commit ih =>
    rw [List.map_cons, List.length_cons, List.range'_succ, List.cons.injEq] at h
    rw [List.map_cons, List.map_cons, numberFrom, ih h.2, ← h.1]

section

variable (h : Core R base p0 sys)
include h

/-- What a flush does to the batcher, in the system's terms: the batch it commits comes from
submissions evaluated below the revisions it gives out, which are the next ones of the log. -/
theorem Core.flushed (hflush : sys.batcher.flush = some (b, commit)) :
    b.accepted = sys.batcher.accepted ++ commit ∧ b.added = sys.batcher.added ∧
    (∀ batch ∈ b.batches, batch ∈ sys.batcher.batches) ∧
    b.lastLogPosition = sys.batcher.lastLogPosition + commit.length ∧
    commit.map Prod.fst = List.range' (sys.store.log.lastRevision + 1) commit.length ∧
    ∀ a ∈ commit, ∃ sub, Committed sys.submissions a sub := by
  obtain ⟨batch, hbatches, hcommit, hpos, -, -, -, -, hadd⟩ := flush_spec hflush
  have hacc := flush_accepted hflush
  have hrevs : commit.map Prod.fst =
      List.range' (sys.store.log.lastRevision + 1) commit.length :=
    h.position ▸ h.batcher.flush_revisions hflush
  refine ⟨hacc, hadd, fun x hx => by simp [hbatches, hx], hpos, hrevs, fun a ha => ?_⟩
  obtain ⟨t, ht, heq⟩ := mem_prepare_transactions (hcommit ▸ ha)
  obtain ⟨sub, hsub⟩ := h.waiting batch (by simp [hbatches]) t ht
  have hgt : sys.store.log.lastRevision < a.1 := by
    have hmem : a.1 ∈ List.range' (sys.store.log.lastRevision + 1) commit.length :=
      hrevs ▸ List.mem_map_of_mem ha
    exact (List.mem_range'_1.mp hmem).1
  refine ⟨sub, ?_, ?_, ?_, ?_⟩
  · rw [heq]
    exact hsub.found
  · rw [heq]
    exact hsub.txnMeta
  · rw [heq, hsub.logRecord]
  · exact (h.submissions sub (List.mem_of_getElem? hsub.found)).later.head.trans_lt hgt

theorem Core.flush (hbare : Bare sys') (hstep : sys.flush = some sys') : Core R base p0 sys' := by
  unfold System.flush at hstep
  split at hstep
  · cases hstep
  · next b hflush =>
    cases hstep
    obtain ⟨hacc, hadd, hsub, hpos, -⟩ := h.flushed hflush
    rw [List.append_nil] at hacc
    refine ⟨{ h.toBare with }, h.batcher.flush hflush, hpos.trans h.position, ?_, h.clients,
      h.submissions, hadd.trans h.added, fun batch hb => h.waiting batch (hsub batch hb), ?_⟩
    · exact hacc ▸ h.history
    · exact hacc ▸ h.accepted
  · next b commit hne hflush =>
    obtain ⟨hacc, hadd, hsub, hpos, hrevs, horigin⟩ := h.flushed hflush
    split at hstep
    · next store hcommit =>
      cases hstep
      have hlater := Store.Later.commit h.held.files hcommit
      obtain ⟨log, hlog, rfl⟩ := Store.commit_eq_ok hcommit
      obtain ⟨-, -, -, hlast, -⟩ := FilesystemLog.commitBatch_spec h.held.files hlog
      refine ⟨hbare, h.batcher.flush hflush, ?_, ?_, ?_, ?_, hadd.trans h.added,
        fun batch hbm => h.waiting batch (hsub batch hbm), ?_⟩
      · show b.lastLogPosition = log.lastRevision
        rw [hpos, hlast, h.position, List.length_map]
      · show sys.store.history ++ _ = _
        rw [numberFrom_eq_map hrevs, hacc, List.map_append, h.history, List.append_assoc]
      · exact fun c hc => (h.clients c hc).mono hlater
      · exact fun sub hs => (h.submissions sub hs).mono hlater
      · intro a ha
        rw [hacc] at ha
        rcases List.mem_append.mp ha with ha | ha
        · exact h.accepted a ha
        · exact horigin a ha
    · cases hstep
      exact { h with }

theorem Core.pick (hstep : sys.batcher.pick = some b) : Core R base p0 { sys with batcher := b } := by
  obtain ⟨hb, hp, -, hf, -, ha⟩ := pick_frame hstep
  exact h.withBatcher (h.batcher.pick hstep) hp hf ha hb

theorem Core.deliver (hstep : sys.batcher.deliver = some b) :
    Core R base p0 { sys with batcher := b } := by
  obtain ⟨hb, hp, -, hf, ha⟩ := deliver_frame hstep
  exact h.withBatcher (h.batcher.deliver hstep) hp hf ha hb

theorem Core.stepJob (hbare : Bare sys') (hstep : sys.stepJob = some sys') : Core R base p0 sys' := by
  unfold System.stepJob at hstep
  split at hstep
  · cases hstep
  · next through job hrun =>
    cases hstep
    obtain ⟨hle, hjob⟩ := h.running through job hrun
    obtain ⟨hreplaces, -⟩ := hjob.step h.held.files fun k r hr hrle =>
      h.held.live_of_indexed hle hr hrle
    have hlast := hreplaces.lastRevision
    exact h.withStore hbare (Store.Later.of_log hlast) rfl hlast rfl rfl rfl

/-! ## All steps -/

/-- Every action keeps the invariant, if what is requested is allowed. -/
theorem Core.step {a : Action} (hreq : ∀ req, a = .request req → R req)
    (hstep : sys.step a = some sys') : Core R base p0 sys' := by
  have hbare := h.toBare.step hstep
  unfold System.step at hstep
  split at hstep
  · cases hstep
  · cases a with
    | request req =>
      cases hstep
      refine { h with clients := ?_ }
      intro c hc
      rcases List.mem_append.mp hc with hc | hc
      · exact h.clients c hc
      · obtain rfl := List.mem_singleton.mp hc
        exact ⟨hreq req rfl, trivial⟩
    | readHead i =>
      obtain ⟨c, hc, hs⟩ := Option.bind_eq_some_iff.mp hstep
      exact h.readHead hc hs
    | apply i env fails =>
      obtain ⟨c, hc, hs⟩ := Option.bind_eq_some_iff.mp hstep
      exact h.apply hc hs
    | evaluate i =>
      obtain ⟨c, hc, hs⟩ := Option.bind_eq_some_iff.mp hstep
      exact h.evaluate hc hs
    | append i =>
      obtain ⟨c, hc, hs⟩ := Option.bind_eq_some_iff.mp hstep
      exact h.append hc hs
    | receive i =>
      obtain ⟨c, hc, hs⟩ := Option.bind_eq_some_iff.mp hstep
      exact h.receive hc hs
    | abandon i =>
      obtain ⟨c, hc, hs⟩ := Option.bind_eq_some_iff.mp hstep
      exact h.abandon hc hs
    | pick =>
      obtain ⟨b, hb, rfl⟩ := Option.map_eq_some_iff.mp hstep
      exact h.pick hb
    | flush => exact h.flush hbare hstep
    | deliver =>
      obtain ⟨b, hb, rfl⟩ := Option.map_eq_some_iff.mp hstep
      exact h.deliver hb
    | close =>
      cases hstep
      exact h.withBatcher h.batcher.close rfl rfl rfl rfl
    | applyUpTo rev env fails =>
      cases hstep
      exact h.applyUpTo env fails rev
    | compact revision =>
      cases hstep
      exact h.withStore hbare (Store.Later.compact _ sys.watchers revision) rfl rfl rfl rfl rfl
    | startJob n =>
      simp only [System.move, System.startJob] at hstep
      split at hstep <;> cases hstep
      exact { h with toBare := hbare }
    | stepJob => exact h.stepJob hbare hstep
    | failJob =>
      simp only [System.move, System.failJob] at hstep
      split at hstep <;> cases hstep
      exact { h with toBare := hbare }
    | rotate =>
      cases hstep
      obtain ⟨-, hlast, -⟩ := FilesystemLog.rotate_frame sys.store.log
      exact h.withStore hbare (Store.Later.of_log hlast) rfl hlast rfl rfl rfl
    | touch revision =>
      cases hstep
      obtain ⟨cache, heq⟩ := FilesystemLog.getLogEntry_frame sys.store.log revision
      have hlast : (sys.store.log.getLogEntry revision).1.lastRevision =
          sys.store.log.lastRevision := by rw [heq]
      exact h.withStore hbare (Store.Later.of_log hlast) rfl hlast rfl rfl rfl
    | watchers watchers =>
      cases hstep
      exact { h with }
    | leases leaseManager =>
      cases hstep
      exact h.withStore hbare { Store.Later.refl sys.store with } rfl rfl rfl rfl rfl

end

/-! ## Requests that write no key twice -/

section

variable (h : Inv base p0 sys)
include h

theorem Inv.store : sys.store.Inv := by
  refine ⟨h.held, h.held.ascending, fun p hp => ?_⟩
  rw [h.history] at hp
  rcases List.mem_append.mp hp with hp | hp
  · exact h.distinct p hp
  · obtain ⟨a, ha, rfl⟩ := List.mem_map.mp hp
    obtain ⟨sub, hcom⟩ := h.accepted a ha
    show (a.2.logRecord.events.map (·.kv.key)).Nodup
    rw [hcom.logRecord, restamp_keys]
    exact (h.submissions sub (List.mem_of_getElem? hcom.found)).distinct

theorem Inv.step {a : Action} (hreq : ∀ req, a = .request req → req.WritesOnce)
    (hstep : sys.step a = some sys') : Inv base p0 sys' :=
  ⟨h.toCore.step hreq hstep, h.distinct⟩

end

end System

end CloudEtcd
