/-
# CloudEtcd.System.Reads — what reads return while writes and compactions go on.

A read is a transaction of one range operation (`RangeRequest.txn`): the call reads the head, applies
records up to it and then evaluates.  The theorems speak of a call whose evaluation comes next, in any
reachable state, so that anything may have happened since it read the head.

Reads at an explicit revision are exact (`get_at_revision`).  A current read skips the check of its
revision, and is exact unless a compaction has passed a later write of its key or the record it finds writes
the key more than once (`current_get_iff`).  A
listing agrees with point reads unless some key it visits was written together with another
(`list_agrees_iff`).
-/
import CloudEtcd.Storage.Listing
import CloudEtcd.System.Agreement

namespace CloudEtcd

open History MemoryStorage

/-! ## A read as a transaction -/

/-- The transaction of `MemoryStorage.Get` and `MemoryStorage.List`. -/
def RangeRequest.txn (req : RangeRequest) : TxnRequest := { success := [.range req] }

/-- The end of `Get` and `List`: the first response, under the header of the transaction. -/
def TxnResponse.rangeResponse (resp : TxnResponse) : Option RangeResponse :=
  match resp.responses with
  | .range r :: _ => some { r with header := resp.header }
  | _ => none

theorem evaluate_txn (m : MemoryStorage) (log : LogReader) {req : RangeRequest} (s : Nat)
    (hend : req.rangeEnd = none) :
    m.evaluate log req.txn s = (m.get log s req).map fun r =>
      (⟨createHeader s, true, [.range r]⟩, Txn.addRead ⟨s, [], TxnMeta.new s⟩ (req.key.getD [])
        (m.readRevision (req.key.getD []) s)) := by
  cases hget : m.get log s req <;>
    simp [evaluate, RangeRequest.txn, evaluateCompares,
      evaluateOps, evaluateOp, hend, hget, bind, Except.bind, pure,
      Except.pure, Except.map]

namespace System

variable {sys sys' : System} {i s : Nat} {req : RangeRequest}

/-- The request and the snapshot of a call whose evaluation comes next. -/
def ready (sys : System) (i : Nat) : Option (TxnRequest × Nat) :=
  match sys.clients[i]? with
  | some ⟨req, _, .ready s⟩ => some (req, s)
  | _ => none

/-- What a read has been answered. -/
def answer (sys : System) (i : Nat) : Option (Except TxnError RangeResponse) :=
  match sys.clients[i]? with
  | some ⟨_, _, .evaluated ev⟩ => ev.resp.rangeResponse.map .ok
  | some ⟨_, _, .done (.ok resp)⟩ => resp.rangeResponse.map .ok
  | some ⟨_, _, .done (.error e)⟩ => some (.error e)
  | _ => none

theorem ready_eq_some {req : TxnRequest} (h : sys.ready i = some (req, s)) :
    ∃ attempt, sys.clients[i]? = some ⟨req, attempt, .ready s⟩ := by
  unfold ready at h
  split at h
  · next attempt _ hc =>
    cases h
    exact ⟨attempt, hc⟩
  · cases h

theorem Core.ready {R : TxnRequest → Prop} {base : LogHistory} {p0 : Nat} {req : TxnRequest}
    (h : Core R base p0 sys) (hready : sys.ready i = some (req, s)) : s ≤ sys.store.mem.applied := by
  obtain ⟨attempt, hc⟩ := ready_eq_some hready
  exact (h.client hc).2.2

theorem move_of_step {a : Action} (hstep : sys.step a = some sys') : sys.move a = some sys' := by
  unfold step at hstep
  split at hstep
  · cases hstep
  · exact hstep

/-- The evaluation of a `Get` answers with what `txn.get` returns, under the snapshot's header. -/
theorem answer_evaluate (hready : sys.ready i = some (req.txn, s)) (hend : req.rangeEnd = none)
    (hne : sys.store.mem.get sys.store.log.read s req ≠ .error .fatal)
    (hstep : sys.step (.evaluate i) = some sys') :
    sys'.answer i = some ((sys.store.mem.get sys.store.log.read s req).map fun r =>
      { r with header := createHeader s }) := by
  obtain ⟨attempt, hc⟩ := ready_eq_some hready
  have hi : i < sys.clients.length := (List.getElem?_eq_some_iff.mp hc).1
  have heval := evaluate_txn sys.store.mem sys.store.log.read s hend
  have hmove := move_of_step hstep
  cases hget : sys.store.mem.get sys.store.log.read s req with
  | ok r =>
    rw [hget] at heval
    simp only [move, hc, Option.bind_some, evaluate, heval, Except.map, Option.some.injEq]
      at hmove
    subst hmove
    simp [answer, setPhase, hi, TxnResponse.rangeResponse, Except.map]
  | error e =>
    have hne : e ≠ .fatal := fun he => hne (by rw [hget, he])
    rw [hget] at heval
    simp only [move, hc, Option.bind_some, evaluate, heval, Except.map, Option.some.injEq]
      at hmove
    subst hmove
    simp [answer, setPhase, hi, Except.map]

end System

/-! ## Current reads -/

/-- A current `Get` returns its key's state after the records up to the header's revision exactly if
the key is readable there: no compaction has passed a later write of a key that existed, and the record
of its last write, if it is still indexed, does not write it twice with another outcome. -/
theorem current_get_iff {env : LeaseEnv} {log : FilesystemLog} {sys₀ sys sys' : System}
    {actions : List System.Action} (hwf : log.WF) (hcache : log.cache.ll = [])
    (hstart : System.start env log = .ok sys₀)
    (hrun : Transition.run System.step sys₀ actions = some sys) {i s : Nat} {req : RangeRequest}
    {k : Bytes} (hready : sys.ready i = some (req.txn, s)) (hkey : req.key = some k)
    (hend : req.rangeEnd = none) (hrev : req.revision ≤ 0) (hcount : req.countOnly = false)
    (hstep : sys.step (.evaluate i) = some sys') :
    ∃ r, sys'.answer i = some (.ok r) ∧ r.header.revision = s ∧
      (sys.store.mem.Readable sys.store.history s k →
        r.kvs = ((stateAt sys.store.history s k).map (MemoryStorage.viewKv req)).toList) ∧
      (req.keysOnly = false →
        r.kvs = ((stateAt sys.store.history s k).map (MemoryStorage.viewKv req)).toList →
        sys.store.mem.Readable sys.store.history s k) := by
  have hinv := System.Core.of_run hwf hcache hstart hrun
  have hs := hinv.ready hready
  have hat : sys.store.mem.readAt s req = .ok s := by
    rw [readAt, if_neg (by omega)]
  obtain ⟨event, hprev⟩ := hinv.held.fetches.prevEvent k s
  have hget := hinv.held.fetches.get_eq hkey hend hcount hat hprev
  have hanswer := System.answer_evaluate hready hend (by simp [hget]) hstep
  rw [hget] at hanswer
  rw [← hinv.held.tracks.prevEvent_iff hs hprev]
  refine ⟨_, hanswer, rfl, fun hlive => ?_, fun hfull hkvs => ?_⟩
  · show (getResponse req s _).kvs = _
    rw [getResponse_kvs, hlive]
  · change (getResponse req s _).kvs = _ at hkvs
    rw [getResponse_kvs] at hkvs
    cases hlive : liveKv event <;> cases hstate : stateAt sys.store.history s k <;>
      simp_all [viewKv]

/-- A current read of key 1. -/
def getOne : RangeRequest := { key := some [1] }

/-- A key is put; a read of it reads the head; the key is put again. -/
def readAcrossPut : List System.Action :=
  System.callAlone 0 (putOne 1) ++
  [.request getOne.txn, .readHead 1, .apply 1 noLeases fun _ => false] ++
  System.callAlone 2 (putOne 2)

/-- Without a compaction the read still finds the first value. -/
theorem current_get_readAcrossPut : ∃ sys sys' r,
    System.runFresh noLeases ⟨0, 0⟩ readAcrossPut = some sys ∧
    sys.step (.evaluate 1) = some sys' ∧ sys'.answer 1 = some (.ok r) ∧ r.header.revision = 2 ∧
    r.kvs = ((stateAt sys.store.history 2 [1]).map (MemoryStorage.viewKv getOne)).toList := by
  obtain ⟨sys, sys', hsys, hstep, hready, hzero, hback⟩ : ∃ sys sys',
      System.runFresh noLeases ⟨0, 0⟩ readAcrossPut = some sys ∧ sys.step (.evaluate 1) = some sys' ∧
      sys.ready 1 = some (getOne.txn, 2) ∧ sys.store.mem.compacted = 0 ∧
      ∀ p ∈ sys.store.history, ReadsBack p.2 [1] := by decide +kernel
  obtain ⟨log, sys₀, -, hlog, hstart, hrun⟩ := System.runFresh_eq_some hsys
  obtain ⟨r, hr⟩ :=
    current_get_iff hlog.files hlog.cache hstart hrun hready rfl rfl (by decide) rfl hstep
  refine ⟨sys, sys', r, hsys, hstep, hr.1, hr.2.1, hr.2.2.1 ⟨?_, fun p hp _ _ => hback p hp⟩⟩
  rintro ⟨-, w, hgt, hle, -⟩
  omega

/-- A compaction at the second put makes the read miss a key that existed all along. -/
theorem current_get_absent : ∃ sys sys',
    System.runFresh noLeases ⟨0, 0⟩ (readAcrossPut ++ [.compact 3]) = some sys ∧
    sys.step (.evaluate 1) = some sys' ∧ sys.ready 1 = some (getOne.txn, 2) ∧
    sys'.answer 1 = some (.ok { header := createHeader 2, kvs := [] }) ∧
    (stateAt sys.store.history 2 [1]).isSome = true := by
  decide +kernel

/-! ## Reads at a revision -/

/-- In a process that started on an empty log, a `Get` at an explicit revision fails below the
compaction point and above the head it read, and otherwise returns the state of its key in the
history. -/
theorem get_at_revision {env : LeaseEnv} {opts : Options} {actions : List System.Action}
    {sys sys' : System} (honce : ∀ a ∈ actions, a.WritesOnce)
    (hrun : System.runFresh env opts actions = some sys) {i h q : Nat} {req : RangeRequest}
    {k : Bytes} (hready : sys.ready i = some (req.txn, h)) (hkey : req.key = some k)
    (hend : req.rangeEnd = none) (hrev : req.revision = q) (hpos : 0 < q)
    (hcount : req.countOnly = false) (hstep : sys.step (.evaluate i) = some sys') :
    (q < sys.store.mem.compacted →
      sys'.answer i = some (.error (.compacted q sys.store.mem.compacted))) ∧
    (sys.store.mem.compacted ≤ q → h < q → sys'.answer i = some (.error (.futureRev q h))) ∧
    (sys.store.mem.compacted ≤ q → q ≤ h → ∃ r, sys'.answer i = some (.ok r) ∧
      r.kvs = ((stateAt sys.store.history q k).map (MemoryStorage.viewKv req)).toList) := by
  obtain ⟨log, sys₀, hlog, hstart, hreach⟩ := System.reached_of_runFresh honce hrun
  have hinv := hreach.inv hlog hstart
  have hco := hinv.store.coherent
  have hread : sys.store.mem.readAt h req =
      (sys.store.mem.checkReadRevision q h).map fun _ => q := by
    rw [readAt, if_pos (by omega), hrev, Int.toNat_natCast]
  have hfail : ∀ e, e ≠ .fatal → sys.store.mem.checkReadRevision q h = .error e →
      sys'.answer i = some (.error e) := by
    intro e hne hcheck
    have hget : sys.store.mem.get sys.store.log.read h req = .error e := by
      simp [MemoryStorage.get, hkey, hend, hread, hcheck, Except.map, bind, Except.bind]
    rw [System.answer_evaluate hready hend (by simp [hget, hne]) hstep, hget]
    rfl
  refine ⟨fun hlt => ?_, fun hle hlt => ?_, fun hle hqh => ?_⟩
  · exact hfail _ (by simp) (by rw [checkReadRevision, if_pos hlt])
  · exact hfail _ (by simp) (by
      rw [checkReadRevision, if_neg (by omega), if_pos hlt])
  · have hat : sys.store.mem.readAt h req = .ok q := by
      rw [hread, checkReadRevision, if_neg (by omega), if_neg (by omega)]
      rfl
    have hq : q ≤ sys.store.mem.applied := hqh.trans (hinv.ready hready)
    have hget := hco.get_eq hkey hend hcount hat hq
    rw [hco.seen_eq_stateAt hle hq] at hget
    have hanswer := System.answer_evaluate hready hend (by simp [hget]) hstep
    rw [hget] at hanswer
    exact ⟨_, hanswer, getResponse_kvs req q _⟩

/-- A key put at 2 and 3, with a compaction at 2, and a read of it at 2. -/
def readAtPoint : List System.Action :=
  System.callAlone 0 (putOne 1) ++ System.callAlone 1 (putOne 2) ++
  [.compact 2, .request { getOne with revision := 2 }.txn, .readHead 2,
    .apply 2 noLeases fun _ => false]

theorem get_at_revision_readAtPoint : ∃ sys sys' r,
    System.runFresh noLeases ⟨0, 0⟩ readAtPoint = some sys ∧
    sys.store.mem.compacted = 2 ∧ sys.step (.evaluate 2) = some sys' ∧
    sys'.answer 2 = some (.ok r) ∧
    r.kvs = ((stateAt sys.store.history 2 [1]).map (MemoryStorage.viewKv getOne)).toList := by
  obtain ⟨sys, sys', hsys, hstep, hready, hcompacted⟩ : ∃ sys sys',
      System.runFresh noLeases ⟨0, 0⟩ readAtPoint = some sys ∧ sys.step (.evaluate 2) = some sys' ∧
      sys.ready 2 = some ({ getOne with revision := 2 }.txn, 3) ∧ sys.store.mem.compacted = 2 :=
    by decide +kernel
  have honce : ∀ a ∈ readAtPoint, a.WritesOnce := by decide +kernel
  obtain ⟨r, hr⟩ := (get_at_revision (q := 2) honce hsys hready rfl rfl rfl (by decide) rfl
    hstep).2.2 (Nat.le_of_eq hcompacted) (by decide)
  exact ⟨sys, sys', r, hsys, hcompacted, hstep, hr⟩

/-! ## Range reads -/

/-- The `Kvs` of a `List` without a limit at a readable revision are those of `Get` for the live keys
in the range, in order and each once, exactly when no visited key's last record puts another key. -/
theorem list_agrees_iff {env : LeaseEnv} {log : FilesystemLog} {sys₀ sys : System}
    (hlog : log.Opened) (hstart : System.start env log = .ok sys₀)
    (hreach : System.Reached sys₀ sys) {s r : Nat} {req : RangeRequest} {rangeEnd : Bytes}
    (hs : s ≤ sys.store.mem.applied) (hat : sys.store.mem.readAt s req = .ok r)
    (hend : req.rangeEnd = some rangeEnd) (hlimit : req.limit ≤ 0)
    (hcount : req.countOnly = false) :
    ∃ resp, sys.store.mem.list sys.store.log.read s req = .ok resp ∧
      (ListsExactly (req.key.getD []) rangeEnd (sys.store.mem.getKv sys.store.log.read s req)
          resp.kvs ↔
        ∀ k, InRange (req.key.getD []) rangeEnd k → isInternalKey k = false →
          OwnRecord sys.store.mem sys.store.history r k) := by
  have hco := (hreach.inv hlog hstart).store.coherent
  exact hco.list_iff hend hlimit hcount hat ((readAt_le hat).trans hs)

/-- A transaction that puts keys 1 and 2. -/
def putBoth : TxnRequest := { success := [.put { key := [1] }, .put { key := [2] }] }

/-- All keys from 1 on. -/
def listAll : RangeRequest := { key := some [1], rangeEnd := some [0] }

/-- After one transaction has put two keys, a listing has both of them twice. -/
theorem list_putBoth : ∃ sys resp,
    System.runFresh noLeases ⟨0, 0⟩ (System.callAlone 0 putBoth) = some sys ∧
    sys.store.mem.list sys.store.log.read 2 listAll = .ok resp ∧
    resp.kvs.map (·.key) = [[1], [2], [1], [2]] ∧
    ¬ ListsExactly [1] [0] (sys.store.mem.getKv sys.store.log.read 2 listAll) resp.kvs := by
  obtain ⟨sys, hsys, resp, hresp, hkeys⟩ :
      ∃ sys, System.runFresh noLeases ⟨0, 0⟩ (System.callAlone 0 putBoth) = some sys ∧
      ∃ resp, sys.store.mem.list sys.store.log.read 2 listAll = .ok resp ∧
        resp.kvs.map (·.key) = [[1], [2], [1], [2]] := by
    decide +kernel
  refine ⟨sys, resp, hsys, hresp, hkeys, fun hlists => ?_⟩
  have hasc := List.pairwise_map.mpr hlists.ascending
  rw [hkeys] at hasc
  exact absurd hasc (by decide +kernel)

/-- After two transactions that put one key each, the listing is that of point reads. -/
theorem list_agrees_putOne : ∃ sys resp,
    System.runFresh noLeases ⟨0, 0⟩
      (System.callAlone 0 (putOne 1) ++ System.callAlone 1 (putOne 2)) = some sys ∧
    sys.store.mem.list sys.store.log.read 3 listAll = .ok resp ∧
    (ListsExactly [1] [0] (sys.store.mem.getKv sys.store.log.read 3 listAll) resp.kvs ↔
      ∀ k, InRange [1] [0] k → isInternalKey k = false →
        OwnRecord sys.store.mem sys.store.history 3 k) := by
  obtain ⟨sys, hsys, happlied⟩ : ∃ sys, System.runFresh noLeases ⟨0, 0⟩
      (System.callAlone 0 (putOne 1) ++ System.callAlone 1 (putOne 2)) = some sys ∧
      sys.store.mem.applied = 3 := by
    decide +kernel
  have honce : ∀ a ∈ System.callAlone 0 (putOne 1) ++ System.callAlone 1 (putOne 2),
      a.WritesOnce := by
    decide +kernel
  obtain ⟨log, sys₀, hlog, hstart, hreach⟩ := System.reached_of_runFresh honce hsys
  obtain ⟨resp, hresp⟩ : ∃ resp, sys.store.mem.list sys.store.log.read 3 listAll = .ok resp ∧ _ :=
    list_agrees_iff hlog hstart hreach (Nat.le_of_eq happlied.symm) rfl rfl (by decide) rfl
  exact ⟨sys, resp, hsys, hresp⟩

end CloudEtcd
