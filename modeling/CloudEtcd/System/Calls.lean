/-
# CloudEtcd.System.Calls — what a `Txn` call leaves in the log.

A `Txn` call that is refused is evaluated again and joins a batch again, so one call may stand behind
several `Add` calls.  `Tracked` is the system with the call behind every result channel.  A call tries
again only when its last transaction was refused: in every state all its transactions but one were
(`AllRefusedBut`), and a refused transaction is in no batch that was appended.  What is left of a call
that returned is the one record of its answer (`CallExact`).

The system delivers the results of a batch in one step and lets every call receive its result at any time
after that, so a result that is sent late is one that is received late.
-/
import CloudEtcd.Persistence.GroupCommit
import CloudEtcd.System.Agreement

namespace CloudEtcd

open Batcher

/-! ## Calls and their channels -/

/-- The evaluation is one of the request, at some state of the store. -/
def Evaluation.Of (ev : Evaluation) (req : TxnRequest) : Prop :=
  ev.store.mem.evaluate ev.store.log.read req ev.txn.snapshotTimestamp = .ok (ev.resp, ev.txn)

/-- What the submissions passed to `Add`. -/
def System.adds (sys : System) : List (LogRecord × TxnMeta) :=
  sys.submissions.map fun sub => (⟨sub.ev.txn.logEvents⟩, sub.ev.txn.txnMeta)

/-- The system, and for every result channel the `Txn` call behind it. -/
structure Tracked where
  sys : System
  owners : List Nat

namespace Tracked

/-- A step of the system; an `append` that adds a transaction is noted. -/
def step (t : Tracked) (a : System.Action) : Option Tracked :=
  (t.sys.step a).map fun sys =>
    match a with
    | .append i =>
      if sys.batcher.added = t.sys.batcher.added then ⟨sys, t.owners⟩
      else ⟨sys, t.owners ++ [i]⟩
    | _ => ⟨sys, t.owners⟩

/-- The accepted transactions of a call. -/
def acceptedOf (t : Tracked) (i : Nat) : List (Nat × PendingTxn) :=
  t.sys.batcher.accepted.filter fun a => t.owners[a.2.resultChan]? = some i

/-- The records that a call appended, with their revisions. -/
def recordsOf (t : Tracked) (i : Nat) : List (Nat × LogRecord) :=
  (t.acceptedOf i).map fun a => (a.1, a.2.logRecord)

/-- A call has appended at most one record.  If it returned a response, its last evaluation staged
nothing and it appended nothing, or it appended exactly the staged record, under the revision in the
response. -/
def CallExact (t : Tracked) (i : Nat) (c : Client) : Prop :=
  (t.recordsOf i).length ≤ 1 ∧
  ∀ resp, c.phase = .done (.ok resp) → ∃ ev : Evaluation, ev.Of c.req ∧
    (ev.txn.logEvents = [] ∧ resp = ev.resp ∧ t.recordsOf i = [] ∨
      ev.txn.logEvents ≠ [] ∧ ∃ r, resp = MemoryStorage.stampResponse ev.resp r ∧
        t.recordsOf i = [(r, restamp r ⟨ev.txn.logEvents⟩)])

/-! ## The invariant -/

/-- All transactions of the call, but the one on the channel `kept`, were refused. -/
def AllRefusedBut (t : Tracked) (i : Nat) (kept : Option Nat) : Prop :=
  ∀ ch, t.owners[ch]? = some i → kept ≠ some ch →
    ∃ res, t.sys.batcher.results.lookup ch = some res ∧ res.success = false

/-- The call's transaction is on the channel, and all its other ones were refused. -/
structure On (t : Tracked) (i : Nat) (req : TxnRequest) (ev : Evaluation) (ch : Nat) : Prop where
  evaluated : ev.Of req
  staged : ev.txn.logEvents ≠ []
  owner : t.owners[ch]? = some i
  submitted : t.sys.submissions[ch]? = some ⟨req, ev⟩
  others : t.AllRefusedBut i (some ch)

/-- The call's transaction was committed. -/
def Landed (t : Tracked) (i : Nat) (req : TxnRequest) (ev : Evaluation) (r : Nat) : Prop :=
  ∃ ch, t.On i req ev ch ∧ t.sys.batcher.results.lookup ch = some ⟨r, true⟩

/-- What is known of a call. -/
def CallInv (t : Tracked) (i : Nat) (c : Client) : Prop :=
  match c.phase with
  | .begin | .snapshot _ | .ready _ => t.AllRefusedBut i none
  | .evaluated ev => ev.Of c.req ∧ t.AllRefusedBut i none
  | .waiting ev ch => t.On i c.req ev ch
  | .committed ev r => t.Landed i c.req ev r
  | .done (.error _) => ∃ kept, t.AllRefusedBut i kept
  | .done (.ok resp) => ∃ ev : Evaluation,
      (ev.Of c.req ∧ ev.txn.logEvents = [] ∧ resp = ev.resp ∧ t.AllRefusedBut i none) ∨
      ∃ r, resp = MemoryStorage.stampResponse ev.resp r ∧ t.Landed i c.req ev r

/-- The invariant of a process that started with the history `base` and the head `p0`. -/
structure Inv (p0 : Nat) (base : LogHistory) (t : Tracked) : Prop where
  batcher : t.sys.batcher.Inv p0
  ledger : ∃ sent, t.sys.batcher.Ledger t.sys.adds sent
  history : t.sys.store.history =
    base ++ t.sys.batcher.accepted.map fun a => (a.1, a.2.logRecord)
  owners : t.owners.length = t.sys.submissions.length
  known : ∀ i ∈ t.owners, i < t.sys.clients.length
  calls : ∀ i c, t.sys.clients[i]? = some c → t.CallInv i c

/-! ## What is known of a call stays known -/

/-- The state has grown, and nothing was added for the call. -/
structure Grows (t t' : Tracked) (i : Nat) : Prop where
  results : ∀ ch res, t.sys.batcher.results.lookup ch = some res →
    t'.sys.batcher.results.lookup ch = some res
  submissions : ∀ (ch : Nat) (sub : Submission), t.sys.submissions[ch]? = some sub →
    t'.sys.submissions[ch]? = some sub
  owners : ∀ ch : Nat, t'.owners[ch]? = some i ↔ t.owners[ch]? = some i

variable {ev : Evaluation} {kept : Option Nat} {req : TxnRequest}

section Grows

variable {t t' : Tracked} {i : Nat}

theorem AllRefusedBut.mono (h : t.AllRefusedBut i kept)
    (hg : t.Grows t' i) : t'.AllRefusedBut i kept := by
  intro ch hch hkept
  obtain ⟨res, hres, hfail⟩ := h ch ((hg.owners ch).mp hch) hkept
  exact ⟨res, hg.results ch res hres, hfail⟩

theorem On.mono {ch : Nat} (h : t.On i req ev ch)
    (hg : t.Grows t' i) : t'.On i req ev ch where
  evaluated := h.evaluated
  staged := h.staged
  owner := (hg.owners ch).mpr h.owner
  submitted := hg.submissions ch _ h.submitted
  others := h.others.mono hg

theorem Landed.mono {r : Nat} (h : t.Landed i req ev r)
    (hg : t.Grows t' i) : t'.Landed i req ev r := by
  obtain ⟨ch, hon, hres⟩ := h
  exact ⟨ch, hon.mono hg, hg.results ch _ hres⟩

theorem CallInv.mono {c : Client} (h : t.CallInv i c) (hg : t.Grows t' i) : t'.CallInv i c := by
  obtain ⟨req, attempt, phase⟩ := c
  match phase with
  | .begin | .snapshot _ | .ready _ => exact AllRefusedBut.mono h hg
  | .evaluated ev => exact ⟨h.1, AllRefusedBut.mono h.2 hg⟩
  | .waiting ev ch => exact On.mono h hg
  | .committed ev r => exact Landed.mono h hg
  | .done (.error _) =>
    obtain ⟨kept, hkept⟩ := h
    exact ⟨kept, hkept.mono hg⟩
  | .done (.ok resp) =>
    obtain ⟨ev, ⟨hof, hnil, hresp, hall⟩ | ⟨r, hresp, hlanded⟩⟩ := h
    · exact ⟨ev, Or.inl ⟨hof, hnil, hresp, hall.mono hg⟩⟩
    · exact ⟨ev, Or.inr ⟨r, hresp, hlanded.mono hg⟩⟩

/-- Nothing that the calls know of has changed. -/
theorem Grows.of_eq (hr : t'.sys.batcher.results = t.sys.batcher.results)
    (hs : t'.sys.submissions = t.sys.submissions) (ho : t'.owners = t.owners) : t.Grows t' i where
  results _ _ h := hr ▸ h
  submissions _ _ h := hs ▸ h
  owners _ := by rw [ho]

end Grows

/-! ## Steps -/

section Steps

variable {p0 : Nat} {base : LogHistory} {t : Tracked}
variable {sys' : System} {i : Nat} {c : Client}

theorem Inv.start {env : LeaseEnv} {log : FilesystemLog} {sys : System}
    (hstart : System.start env log = .ok sys) :
    Inv sys.store.log.lastRevision sys.store.history ⟨sys, []⟩ := by
  obtain ⟨store, -, hrest⟩ := bind_eq_ok.mp hstart
  cases hrest
  refine ⟨Batcher.Inv.new _, ⟨[], Batcher.Ledger.new _⟩, ?_, rfl, by simp, by simp⟩
  simp [accepted, new]

section

variable (h : Inv p0 base t)
include h

/-- A step of the store that commits nothing. -/
theorem Inv.withStore (hhist : sys'.store.history = t.sys.store.history)
    (hb : sys'.batcher = t.sys.batcher) (hs : sys'.submissions = t.sys.submissions)
    (hc : sys'.clients = t.sys.clients) :
    Inv p0 base ⟨sys', t.owners⟩ where
  batcher := hb ▸ h.batcher
  ledger := by
    simp only [System.adds, hb, hs]
    exact h.ledger
  history := by
    simp only [hhist, hb]
    exact h.history
  owners := by
    simp only [hs]
    exact h.owners
  known := by
    simp only [hc]
    exact h.known
  calls i c hic := by
    simp only [hc] at hic
    exact (h.calls i c hic).mono (Grows.of_eq (congrArg _ hb) hs rfl)

/-- A step of the batcher that adds and commits nothing. -/
theorem Inv.withBatcher {b : Batcher} {sent : List (Nat × BatchResult)}
    (hb : b.Inv p0) (hledger : b.Ledger t.sys.adds sent)
    (hflushes : b.flushes = t.sys.batcher.flushes)
    (hresults : ∀ ch res, t.sys.batcher.results.lookup ch = some res →
    b.results.lookup ch = some res) :
    Inv p0 base ⟨{ t.sys with batcher := b }, t.owners⟩ where
  batcher := hb
  ledger := ⟨sent, hledger⟩
  history := by
    rw [accepted_eq hflushes]
    exact h.history
  owners := h.owners
  known := h.known
  calls i c hic := (h.calls i c hic).mono ⟨hresults, fun _ _ hsub => hsub, fun _ => Iff.rfl⟩

/-- A call moves on. -/
theorem Inv.setClient {c' : Client} (hc' : t.CallInv i c') :
    Inv p0 base ⟨{ t.sys with clients := t.sys.clients.set i c' }, t.owners⟩ where
  batcher := h.batcher
  ledger := h.ledger
  history := h.history
  owners := h.owners
  known j hj := by
    rw [List.length_set]
    exact h.known j hj
  calls j c hjc := by
    suffices hold : t.CallInv j c from hold.mono (Grows.of_eq rfl rfl rfl)
    by_cases hij : i = j
    · subst hij
      obtain rfl : c = c' := by
        rw [List.getElem?_set] at hjc
        split at hjc
        · split at hjc
          · exact (Option.some.inj hjc).symm
          · cases hjc
        · contradiction
      exact hc'
    · exact h.calls j c (List.getElem?_set_ne hij ▸ hjc)

theorem Inv.applyUpTo (env : LeaseEnv) (fails : Nat → Bool) (rev : Nat) :
    Inv p0 base ⟨{ t.sys with store := (t.sys.store.applyUpTo env fails rev).1 }, t.owners⟩ :=
  h.withStore rfl rfl rfl rfl

section

variable (hc : t.sys.clients[i]? = some c)
include hc

theorem Inv.readHead (hstep : t.sys.readHead i c = some sys') : Inv p0 base ⟨sys', t.owners⟩ := by
  have hinv := h.calls i c hc
  unfold System.readHead at hstep
  split at hstep
  · next hp =>
    cases hstep
    simp only [CallInv, hp] at hinv
    exact h.setClient hinv
  · cases hstep

theorem Inv.apply {env : LeaseEnv} {fails : Nat → Bool}
    (hstep : t.sys.apply i c env fails = some sys') : Inv p0 base ⟨sys', t.owners⟩ := by
  have hinv := h.calls i c hc
  unfold System.apply at hstep
  split at hstep
  · next head hp =>
    simp only [CallInv, hp] at hinv
    have hnext := h.applyUpTo env fails head
    dsimp only at hstep
    split at hstep
    · cases hstep
      exact hnext.setClient hinv
    · cases hstep
      exact hnext.setClient ⟨none, hinv⟩
  · next ev revision hp =>
    simp only [CallInv, hp] at hinv
    have hnext := h.applyUpTo env fails revision
    dsimp only at hstep
    split at hstep
    · cases hstep
      exact hnext.setClient ⟨ev, Or.inr ⟨revision, rfl, hinv.mono (Grows.of_eq rfl rfl rfl)⟩⟩
    · cases hstep
      obtain ⟨ch, hon, -⟩ := hinv
      exact hnext.setClient ⟨some ch, hon.others⟩
  · cases hstep

theorem Inv.evaluate (hstep : t.sys.evaluate i c = some sys') : Inv p0 base ⟨sys', t.owners⟩ := by
  have hinv := h.calls i c hc
  unfold System.evaluate at hstep
  split at hstep
  · next s hp =>
    simp only [CallInv, hp] at hinv
    split at hstep
    · next resp txn heval =>
      cases hstep
      have hsnap := (MemoryStorage.evaluate_spec heval).staged.snapshot
      have hof : (⟨t.sys.store, resp, txn⟩ : Evaluation).Of c.req := by
        rw [Evaluation.Of, hsnap]
        exact heval
      exact h.setClient ⟨hof, hinv⟩
    · cases hstep
      exact h.withStore rfl rfl rfl rfl
    · cases hstep
      exact h.setClient ⟨none, hinv⟩
  · cases hstep

/-- A transaction joins a batch. -/
theorem Inv.added
    (hof : ev.Of c.req) (hstaged : ev.txn.logEvents ≠ []) (hall : t.AllRefusedBut i none) :
    Inv p0 base ⟨{ t.sys with
      clients := t.sys.clients.set i { c with phase := .waiting ev t.sys.batcher.added }
      batcher := t.sys.batcher.add ⟨ev.txn.logEvents⟩ ev.txn.txnMeta
      submissions := t.sys.submissions ++ [⟨c.req, ev⟩] }, t.owners ++ [i]⟩ := by
  obtain ⟨-, -, hfl, -, hres, -⟩ :=
    add_frame t.sys.batcher ⟨ev.txn.logEvents⟩ ev.txn.txnMeta
  obtain ⟨sent, hledger⟩ := h.ledger
  have hch : t.sys.batcher.added = t.owners.length := by
    rw [hledger.added, System.adds, List.length_map, h.owners]
  refine ⟨h.batcher.add _ _, ⟨sent, ?_⟩, ?_, ?_, ?_, ?_⟩
  · simpa [System.adds] using hledger.add ⟨ev.txn.logEvents⟩ ev.txn.txnMeta
  · exact (accepted_eq hfl).symm ▸ h.history
  · simp [h.owners]
  · intro j hj
    rw [List.length_set]
    rcases List.mem_append.mp hj with hj | hj
    · exact h.known j hj
    · obtain rfl := List.mem_singleton.mp hj
      exact (List.getElem?_eq_some_iff.mp hc).1
  · intro j c' hjc
    by_cases hij : i = j
    · subst hij
      rw [List.getElem?_set_self (List.getElem?_eq_some_iff.mp hc).1] at hjc
      cases hjc
      refine ⟨hof, hstaged, ?_, ?_, fun ch hown hne => ?_⟩
      · rw [hch]
        simp
      · rw [hch, h.owners]
        simp
      · -- The other channels of the call are older.
        have hlt : ch < t.owners.length := by
          have hle := (List.getElem?_eq_some_iff.mp hown).1
          rw [List.length_append, List.length_singleton] at hle
          have hne' : t.sys.batcher.added ≠ ch := fun heq => hne (congrArg some heq)
          omega
        rw [List.getElem?_append_left hlt] at hown
        obtain ⟨res, hlook, hfail⟩ := hall ch hown nofun
        exact ⟨res, hres ▸ hlook, hfail⟩
    · rw [List.getElem?_set_ne hij] at hjc
      refine (h.calls j c' hjc).mono ⟨fun _ _ hlook => hres ▸ hlook, fun ch sub hsub => ?_, fun ch => ?_⟩
      · exact getElem?_append_of_eq_some hsub _
      · rw [List.getElem?_append]
        split
        · exact Iff.rfl
        · next hge =>
          rw [List.getElem?_eq_none (Nat.le_of_not_lt hge)]
          constructor
          · intro hown
            exact absurd (List.mem_singleton.mp (List.mem_of_getElem? hown)).symm hij
          · nofun

theorem Inv.append (hstep : t.sys.append i c = some sys') :
    Inv p0 base (if sys'.batcher.added = t.sys.batcher.added then ⟨sys', t.owners⟩
      else ⟨sys', t.owners ++ [i]⟩) := by
  have hinv := h.calls i c hc
  unfold System.append at hstep
  split at hstep
  · next ev hp =>
    simp only [CallInv, hp] at hinv
    obtain ⟨hof, hall⟩ := hinv
    split at hstep
    · next hempty =>
      cases hstep
      have hsame : (t.sys.setPhase i c (.done (.ok ev.resp))).batcher.added =
        t.sys.batcher.added := rfl
      rw [if_pos hsame]
      exact h.setClient ⟨ev, Or.inl ⟨hof, List.isEmpty_iff.mp hempty, rfl, hall⟩⟩
    · next hne =>
      cases hstep
      obtain ⟨-, -, -, -, -, hadd⟩ :=
        add_frame t.sys.batcher ⟨ev.txn.logEvents⟩ ev.txn.txnMeta
      rw [if_neg (by simp [hadd])]
      exact h.added hc hof (fun hnil => hne (by simp [hnil])) hall
  · cases hstep

theorem Inv.receive (hstep : t.sys.receive i c = some sys') : Inv p0 base ⟨sys', t.owners⟩ := by
  have hinv := h.calls i c hc
  unfold System.receive at hstep
  split at hstep
  · next ev ch hp =>
    simp only [CallInv, hp] at hinv
    split at hstep
    · cases hstep
    · next result hlook =>
      split at hstep
      · next hok =>
        cases hstep
        have hres : result = ⟨result.revision, true⟩ := by
          rw [← hok]
        exact h.setClient ⟨ch, hinv, hres ▸ hlook⟩
      · next hfail =>
        cases hstep
        -- Now this one is refused too.
        have hall : t.AllRefusedBut i none := by
          intro ch' hown _
          by_cases hch : ch = ch'
          · exact ⟨result, hch ▸ hlook, Bool.eq_false_of_not_eq_true hfail⟩
          · exact hinv.others ch' hown fun heq => hch (Option.some.inj heq)
        by_cases hlt : c.attempt + 1 < System.maxTxnAttempts
        · rw [if_pos hlt]
          exact h.setClient hall
        · rw [if_neg hlt]
          exact h.setClient ⟨none, hall⟩
  · cases hstep

theorem Inv.abandon (hstep : t.sys.abandon i c = some sys') : Inv p0 base ⟨sys', t.owners⟩ := by
  have hinv := h.calls i c hc
  unfold System.abandon at hstep
  split at hstep
  · next ev ch hp =>
    cases hstep
    simp only [CallInv, hp] at hinv
    exact h.setClient ⟨some ch, hinv.others⟩
  · cases hstep

end

theorem Inv.flush (hstep : t.sys.flush = some sys') : Inv p0 base ⟨sys', t.owners⟩ := by
  obtain ⟨sent, hledger⟩ := h.ledger
  unfold System.flush at hstep
  split at hstep
  · cases hstep
  · next b hflush =>
    cases hstep
    obtain ⟨-, -, -, -, -, -, -, hres, -⟩ := flush_spec hflush
    have hacc := flush_accepted hflush
    refine ⟨h.batcher.flush hflush, ⟨sent, hledger.flush hflush⟩, ?_, h.owners, h.known, ?_⟩
    · rw [hacc, List.append_nil]
      exact h.history
    · exact fun i c hic => (h.calls i c hic).mono (Grows.of_eq hres rfl rfl)
  · next b commit _ hflush =>
    split at hstep
    · next store hcommit =>
      cases hstep
      obtain ⟨-, -, -, -, -, -, -, hres, -⟩ := flush_spec hflush
      have hacc := flush_accepted hflush
      obtain ⟨log, hlog, rfl⟩ := Store.commit_eq_ok hcommit
      have hrevs := h.batcher.flush_revisions hflush
      rw [(FilesystemLog.commitBatch_eq_ok hlog).1] at hrevs
      refine ⟨h.batcher.flush hflush, ⟨sent, hledger.flush hflush⟩, ?_, h.owners, h.known, ?_⟩
      · show t.sys.store.history ++ _ = _
        rw [System.numberFrom_eq_map hrevs, hacc, List.map_append, h.history,
          List.append_assoc]
      · exact fun i c hic => (h.calls i c hic).mono (Grows.of_eq hres rfl rfl)
    · cases hstep
      exact h.withStore rfl rfl rfl rfl

theorem Inv.deliver {b : Batcher} (hstep : t.sys.batcher.deliver = some b) :
    Inv p0 base ⟨{ t.sys with batcher := b }, t.owners⟩ := by
  obtain ⟨sent, hledger⟩ := h.ledger
  obtain ⟨-, -, -, hf, -⟩ := deliver_frame hstep
  have hnext := hledger.deliver hstep
  refine h.withBatcher (h.batcher.deliver hstep) hnext hf fun ch res hlook => ?_
  exact (hnext.results ch res).mpr (List.mem_append_left _ ((hledger.results ch res).mp hlook))

theorem Inv.request (req : TxnRequest) :
    Inv p0 base ⟨{ t.sys with clients := t.sys.clients ++ [⟨req, 0, .begin⟩] }, t.owners⟩ where
  batcher := h.batcher
  ledger := h.ledger
  history := h.history
  owners := h.owners
  known i hi := by
    rw [List.length_append]
    exact Nat.lt_add_right _ (h.known i hi)
  calls i c hic := by
    suffices hold : t.CallInv i c from hold.mono (Grows.of_eq rfl rfl rfl)
    rw [List.getElem?_append] at hic
    split at hic
    · exact h.calls i c hic
    · next hge =>
      obtain rfl := List.mem_singleton.mp (List.mem_of_getElem? hic)
      -- The call is new, so no channel is its.
      exact fun ch hown _ => absurd (h.known i (List.mem_of_getElem? hown)) hge

end

/-- Every step keeps the invariant. -/
theorem Inv.step (t : Tracked) (a : System.Action) (t' : Tracked) (h : Inv p0 base t)
    (hstep : t.step a = some t') : Inv p0 base t' := by
  obtain ⟨sys', hsys, rfl⟩ := Option.map_eq_some_iff.mp hstep
  unfold System.step at hsys
  split at hsys
  · cases hsys
  · cases a with
    | request req =>
      cases hsys
      exact h.request req
    | readHead i =>
      obtain ⟨c, hc, hs⟩ := Option.bind_eq_some_iff.mp hsys
      exact h.readHead hc hs
    | apply i env fails =>
      obtain ⟨c, hc, hs⟩ := Option.bind_eq_some_iff.mp hsys
      exact h.apply hc hs
    | evaluate i =>
      obtain ⟨c, hc, hs⟩ := Option.bind_eq_some_iff.mp hsys
      exact h.evaluate hc hs
    | append i =>
      obtain ⟨c, hc, hs⟩ := Option.bind_eq_some_iff.mp hsys
      exact h.append hc hs
    | receive i =>
      obtain ⟨c, hc, hs⟩ := Option.bind_eq_some_iff.mp hsys
      exact h.receive hc hs
    | abandon i =>
      obtain ⟨c, hc, hs⟩ := Option.bind_eq_some_iff.mp hsys
      exact h.abandon hc hs
    | pick =>
      obtain ⟨b, hb, rfl⟩ := Option.map_eq_some_iff.mp hsys
      obtain ⟨sent, hledger⟩ := h.ledger
      obtain ⟨-, -, -, hf, hr, -⟩ := pick_frame hb
      exact h.withBatcher (h.batcher.pick hb) (hledger.pick hb) hf fun _ _ hl => hr ▸ hl
    | flush => exact h.flush hsys
    | deliver =>
      obtain ⟨b, hb, rfl⟩ := Option.map_eq_some_iff.mp hsys
      exact h.deliver hb
    | close =>
      cases hsys
      obtain ⟨sent, hledger⟩ := h.ledger
      exact h.withBatcher h.batcher.close hledger.close rfl fun _ _ hl => hl
    | startJob n =>
      simp only [System.move, System.startJob] at hsys
      split at hsys
      · cases hsys
        exact h.withStore rfl rfl rfl rfl
      · cases hsys
    | stepJob =>
      simp only [System.move, System.stepJob] at hsys
      split at hsys
      · cases hsys
      · cases hsys
        exact h.withStore rfl rfl rfl rfl
    | failJob =>
      simp only [System.move, System.failJob] at hsys
      split at hsys
      · cases hsys
      · cases hsys
        exact h.withStore rfl rfl rfl rfl
    | applyUpTo rev env fails =>
      cases hsys
      exact h.applyUpTo env fails rev
    | compact _ | rotate | touch _ | watchers _ | leases _ =>
      cases hsys
      exact h.withStore rfl rfl rfl rfl

/-! ## What is in the log -/

section

variable (h : Inv p0 base t)
include h

/-- The accepted transactions of a call are the one that was not refused, at most. -/
theorem Inv.acceptedOf_channel (hall : t.AllRefusedBut i kept) {a : Nat × PendingTxn}
    (ha : a ∈ t.acceptedOf i) : kept = some a.2.resultChan := by
  obtain ⟨sent, hledger⟩ := h.ledger
  obtain ⟨hacc, hown⟩ := List.mem_filter.mp ha
  by_contra hne
  obtain ⟨res, hlook, hfail⟩ := hall _ (of_decide_eq_true hown) hne
  exact hledger.not_accepted ((hledger.results _ _).mp hlook) hfail hacc rfl

theorem Inv.acceptedOf_ascending (i : Nat) :
    ((t.acceptedOf i).map fun a => a.2.resultChan).Pairwise (· < ·) := by
  obtain ⟨sent, hledger⟩ := h.ledger
  exact hledger.accepted_ascending.sublist (List.filter_sublist.map _)

theorem Inv.recordsOf_eq_nil (hall : t.AllRefusedBut i none) : t.recordsOf i = [] := by
  rw [recordsOf, List.map_eq_nil_iff, List.eq_nil_iff_forall_not_mem]
  exact fun a ha => absurd (h.acceptedOf_channel hall ha) nofun

/-- Transactions of one call in the log would be two on one channel. -/
theorem Inv.recordsOf_length (hall : t.AllRefusedBut i kept) : (t.recordsOf i).length ≤ 1 := by
  have hasc := h.acceptedOf_ascending i
  have hch := fun a => h.acceptedOf_channel (a := a) hall
  rw [recordsOf, List.length_map]
  match t.acceptedOf i, hasc, hch with
  | [], _, _ => exact Nat.zero_le 1
  | [_], _, _ => exact le_rfl
  | a :: b :: rest, hasc, hch =>
    have hlt : a.2.resultChan < b.2.resultChan :=
      (List.pairwise_cons.mp hasc).1 _ (by simp)
    have heq := (hch a (by simp)).symm.trans (hch b (by simp))
    exact absurd (Option.some.inj heq) hlt.ne

/-- The record of a call whose transaction was committed. -/
theorem Inv.recordsOf_landed {r : Nat} (hlanded : t.Landed i req ev r) :
    t.recordsOf i = [(r, restamp r ⟨ev.txn.logEvents⟩)] := by
  obtain ⟨sent, hledger⟩ := h.ledger
  obtain ⟨ch, hon, hlook⟩ := hlanded
  have hsent := (hledger.results _ _).mp hlook
  obtain ⟨txn, htxn, hch⟩ := hledger.success_iff.mp (List.mem_append_left _ hsent)
  obtain ⟨a, ha, hrecord, -⟩ := hledger.record htxn
  have hsub : t.sys.adds[txn.resultChan]? = some (⟨ev.txn.logEvents⟩, ev.txn.txnMeta) := by
    rw [System.adds, List.getElem?_map, hch, hon.submitted]
    rfl
  obtain rfl := Option.some.inj (ha.symm.trans hsub)
  have hmem : (r, txn) ∈ t.acceptedOf i := by
    refine List.mem_filter.mpr ⟨htxn, decide_eq_true ?_⟩
    rw [hch]
    exact hon.owner
  have hin : (r, txn.logRecord) ∈ t.recordsOf i := List.mem_map_of_mem hmem
  obtain ⟨x, hx⟩ : ∃ x, t.recordsOf i = [x] := by
    apply List.length_eq_one_iff.mp
    exact le_antisymm (h.recordsOf_length hon.others) (List.length_pos_of_mem hin)
  rw [hx, List.mem_singleton] at hin
  rw [hx, ← hin, hrecord]

theorem Inv.callExact (hc : t.sys.clients[i]? = some c) : t.CallExact i c := by
  have hinv := h.calls i c hc
  obtain ⟨req, attempt, phase⟩ := c
  match phase with
  | .begin | .snapshot _ | .ready _ => exact ⟨h.recordsOf_length hinv, nofun⟩
  | .evaluated ev => exact ⟨h.recordsOf_length hinv.2, nofun⟩
  | .waiting ev ch => exact ⟨h.recordsOf_length hinv.others, nofun⟩
  | .committed ev r =>
    obtain ⟨ch, hon, -⟩ := hinv
    exact ⟨h.recordsOf_length hon.others, nofun⟩
  | .done (.error e) =>
    obtain ⟨kept, hall⟩ := hinv
    exact ⟨h.recordsOf_length hall, nofun⟩
  | .done (.ok resp) =>
    obtain ⟨ev, ⟨hof, hnil, hresp, hall⟩ | ⟨r, hresp, hlanded⟩⟩ := hinv
    · refine ⟨h.recordsOf_length hall, ?_⟩
      rintro _ ⟨⟩
      exact ⟨ev, hof, Or.inl ⟨hnil, hresp, h.recordsOf_eq_nil hall⟩⟩
    · have hrecord := h.recordsOf_landed hlanded
      obtain ⟨ch, hon, -⟩ := hlanded
      refine ⟨hrecord ▸ le_rfl, ?_⟩
      rintro _ ⟨⟩
      exact ⟨ev, hon.evaluated, Or.inr ⟨hon.staged, r, hresp, hrecord⟩⟩

end

end Steps

end Tracked

/-! ## Group commit -/

/-- Group commit loses and duplicates nothing.  In every run of the batching layer every `Add` call gets
its one answer, the accepted records are handed over once, in order and under contiguous revisions, and a
flusher that was told to stop leaves.  In every run of the system the log grows by the accepted records,
and each `Txn` call leaves at most one there, and exactly the one it reports. -/
theorem group_commit_exact :
    (∀ p0 actions g, Transition.run GroupCommit.step (GroupCommit.new p0) actions = some g →
      g.Exact p0 ∧ (g.batcher.stop = true → g.Leaves)) ∧
    ∀ env log sys₀ actions t, System.start env log = .ok sys₀ →
      Transition.run Tracked.step ⟨sys₀, []⟩ actions = some t →
      t.sys.store.history =
        sys₀.store.history ++ t.sys.batcher.accepted.map (fun a => (a.1, a.2.logRecord)) ∧
      ∀ i c, t.sys.clients[i]? = some c → t.CallExact i c := by
  constructor
  · intro p0 actions g hrun
    have hinv := Transition.run_invariant GroupCommit.Inv.step hrun (GroupCommit.Inv.new p0)
    exact ⟨hinv.exact, g.leaves_of_stop⟩
  · intro env log sys₀ actions t hstart hrun
    have hinv := Transition.run_invariant Tracked.Inv.step hrun (Tracked.Inv.start hstart)
    exact ⟨hinv.history, fun i c => hinv.callExact⟩

/-- Two writes of one key at one snapshot, the second call while the first batch is prepared, and a
third call during the sends. -/
def addThree : List GroupCommit.Action :=
  [.add ⟨[]⟩ ((TxnMeta.new 1).addWrite [97]), .pick, .add ⟨[]⟩ ((TxnMeta.new 1).addWrite [97]),
    .flush, .add ⟨[]⟩ ((TxnMeta.new 2).addWrite [98]), .send, .close, .finish, .pick, .flush, .send,
    .send, .finish, .pick]

/-- Two `Txn` calls put one key at one snapshot; the second is refused and tries again. -/
def putTwice : List System.Action :=
  [.request (putOne 1), .request (putOne 2), .readHead 0, .readHead 1,
    .apply 0 noLeases fun _ => false, .apply 1 noLeases fun _ => false, .evaluate 0, .evaluate 1,
    .append 0, .append 1, .pick, .flush, .deliver, .pick, .flush, .deliver, .receive 0, .receive 1,
    .apply 0 noLeases fun _ => false, .readHead 1, .apply 1 noLeases fun _ => false, .evaluate 1,
    .append 1, .pick, .flush, .deliver, .receive 1, .apply 1 noLeases fun _ => false]

/-- What was sent and handed over in the first run, and what the two calls of the second left. -/
theorem group_commit_exact_retry :
    (∃ g, Transition.run GroupCommit.step (GroupCommit.new 1) addThree = some g ∧
      g.sent = [(0, ⟨2, true⟩), (2, ⟨3, true⟩), (1, ⟨0, false⟩)] ∧
      g.handed.map (fun a => (a.1, a.2.resultChan)) = [(2, 0), (3, 2)] ∧ g.Exact 1) ∧
    ∃ sys₀ t, System.runFresh noLeases ⟨0, 0⟩ [] = some sys₀ ∧
      Transition.run Tracked.step ⟨sys₀, []⟩ putTwice = some t ∧
      t.owners = [0, 1, 1] ∧ (t.recordsOf 0).map Prod.fst = [2] ∧
      (t.recordsOf 1).map Prod.fst = [3] ∧
      ∀ i c, t.sys.clients[i]? = some c → t.CallExact i c := by
  constructor
  · obtain ⟨g, hg, hsent, hhanded⟩ : ∃ g,
        Transition.run GroupCommit.step (GroupCommit.new 1) addThree = some g ∧
        g.sent = [(0, ⟨2, true⟩), (2, ⟨3, true⟩), (1, ⟨0, false⟩)] ∧
        g.handed.map (fun a => (a.1, a.2.resultChan)) = [(2, 0), (3, 2)] :=
      by decide +kernel
    exact ⟨g, hg, hsent, hhanded, (group_commit_exact.1 1 addThree g hg).1⟩
  · obtain ⟨sys₀, t, hfresh, ht, hown, hfirst, hsecond⟩ : ∃ sys₀ t,
        System.runFresh noLeases ⟨0, 0⟩ [] = some sys₀ ∧
        Transition.run Tracked.step ⟨sys₀, []⟩ putTwice = some t ∧
        t.owners = [0, 1, 1] ∧ (t.recordsOf 0).map Prod.fst = [2] ∧
        (t.recordsOf 1).map Prod.fst = [3] := by decide +kernel
    obtain ⟨log, sys₁, -, -, hstart, hnil⟩ := System.runFresh_eq_some hfresh
    obtain rfl : sys₁ = sys₀ := Option.some.inj hnil
    refine ⟨sys₁, t, hfresh, ht, hown, hfirst, hsecond, ?_⟩
    exact (group_commit_exact.2 noLeases log sys₁ putTwice t hstart ht).2

end CloudEtcd
