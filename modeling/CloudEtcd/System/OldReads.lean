/-
# CloudEtcd.System.OldReads — reads below an old compaction point after a restart.

The compaction point is kept in memory only.  A new process does not refuse any revision, and answers a
`Get` from the records that the files still hold, as if nothing else had ever been there.  It gives every
key the state that it had in the history if every record that a log compaction dropped is expendable: it
writes nothing, or deletes keys that without it have no value at its revision (`agree_of_expendable`).  A
dropped put never is: its key had a value there that no other record gives.  And a lookup takes the first
event of a record on its key, so that the records must not write a key twice.
-/
import CloudEtcd.Storage.Restart
import CloudEtcd.System.Serializability

namespace CloudEtcd

open History MemoryStorage FilesystemLog

/-! ## Histories with records missing -/

/-- The records give every key its state in the history, at every revision. -/
def Agree (records hist : LogHistory) : Prop := ∀ k q, stateAt records q k = stateAt hist q k

/-- What the records lack are deletes of keys that without them have no value. -/
def Expendable (hist kept : LogHistory) : Prop :=
  ∀ p ∈ hist, p ∉ kept → ∀ e ∈ p.2.events,
    e.type = .delete ∧ stateAt kept p.1 e.kv.key = none

instance (hist kept : LogHistory) : Decidable (Expendable hist kept) :=
  inferInstanceAs (Decidable (∀ p ∈ hist, p ∉ kept → ∀ e ∈ p.2.events, _ ∧ _))

/-- Records appended to both change nothing. -/
theorem Agree.append {records hist : LogHistory} (h : Agree records hist) (new : LogHistory) :
    Agree (records ++ new) (hist ++ new) := by
  intro k q
  rw [stateAt, stateAt, lastEvent_append_or, lastEvent_append_or]
  cases lastEvent new k q with
  | some p => rfl
  | none => exact h k q

theorem agree_of_expendable {hist kept : LogHistory} (hasc : Ascending hist)
    (hasc' : Ascending kept) (hsub : ∀ p ∈ kept, p ∈ hist) (hexp : Expendable hist kept) :
    Agree kept hist := by
  have hwrites : ∀ {k r}, Writes kept k r → Writes hist k r := by
    rintro k r ⟨x, hx, ht⟩
    exact ⟨x, hsub _ hx, ht⟩
  intro k q
  cases hlast : lastEvent hist k q with
  | none =>
    have hnone : lastEvent kept k q = none :=
      lastEvent_eq_none_iff.mpr fun r hr hw => lastEvent_eq_none_iff.mp hlast r hr (hwrites hw)
    rw [stateAt, stateAt, hlast, hnone]
  | some w =>
    obtain ⟨r, e⟩ := w
    obtain ⟨⟨x, hx, hr, hon⟩, hmax⟩ := (lastEvent_eq_some_iff_of_ascending hasc).mp hlast
    by_cases hkept : (r, x) ∈ kept
    · have hlast' : lastEvent kept k q = some (r, e) :=
        (lastEvent_eq_some_iff_of_ascending hasc').mpr
          ⟨⟨x, hkept, hr, hon⟩, fun r' hr' hw => hmax r' hr' (hwrites hw)⟩
      rw [stateAt, stateAt, hlast, hlast']
    · -- The delete is gone, and so is every value that it hid.
      obtain ⟨he, hk⟩ := mem_of_lastOn hon
      obtain ⟨hdelete, hnone⟩ := hexp _ hx hkept e he
      obtain rfl : e.kv.key = k := hk
      have hquiet : lastEvent kept e.kv.key q = lastEvent kept e.kv.key r := by
        refine lastEvent_eq_of_quiet hasc' hr fun r' hlt hle hw => ?_
        have := hmax r' hle (hwrites hw)
        omega
      have hstate : stateAt kept q e.kv.key = stateAt kept r e.kv.key := by
        rw [stateAt, stateAt, hquiet]
      rw [hstate, hnone, stateAt, hlast]
      simp [liveKv, hdelete]

/-! ## A restart -/

namespace Store

/-- After a restart every `Get` at a revision up to the head returns the state that the key had there, or
says that the revision is compacted. -/
def AnswersOldReads (env : LeaseEnv) (opts : Options) (s : Store) : Prop :=
  ∃ s', boot env opts s.log.close = some s' ∧ ∀ k q, 0 < q → q ≤ s.log.lastRevision →
    s'.getAt k q = .ok (getResponse { key := some k, revision := q } q (stateAt s.history q k)) ∨
      ∃ compacted, s'.getAt k q = .error (.compacted q compacted)

theorem Inv.answersOldReads {s : Store} (h : s.Inv) (hstarted : 0 < s.log.lastRevision)
    (hagree : Agree s.log.records s.history) (env : LeaseEnv) (opts : Options) :
    s.AnswersOldReads env opts := by
  obtain ⟨s', hboot, hinv, hhist, hzero, happlied, hlast, -⟩ := h.boot_close hstarted env opts
  refine ⟨s', hboot, fun k q hq hle => .inl ?_⟩
  have hpoint : s'.readPoint q = q := if_neg (by omega)
  rw [hinv.getAt_eq happlied k (by omega) (by omega), hpoint, hhist, hagree k q]

end Store

/-! ## Runs -/

namespace System

variable {base : LogHistory} {p0 : Nat} {sys sys' : System}

/-- The step is one of a log compaction. -/
def Action.compactsLog : Action → Bool
  | .stepJob => true
  | _ => false

/-- The records that the log has after the next step of the log compaction that is running. -/
def keptNext (sys : System) : Option LogHistory :=
  sys.running.map fun r => (r.2.step sys.store.log (sys.store.mem.live r.1)).1.records

/-- A transaction that is requested writes no key twice, and what a log compaction drops with the step is
expendable. -/
def KeepsOldReads (sys : System) (a : Action) : Prop :=
  a.WritesOnce ∧
    (a.compactsLog = true → ∀ kept ∈ sys.keptNext, Expendable sys.store.log.records kept)

instance decidableKeepsOldReads (sys : System) (a : Action) : Decidable (sys.KeepsOldReads a) :=
  inferInstanceAs (Decidable (_ ∧ (_ → ∀ kept ∈ sys.keptNext, _)))

variable {a : Action}

/-- A step other than of a log compaction adds the same records to the log and to the history. -/
theorem Bare.step_records (h : Bare sys) (ha : a ≠ .stepJob)
    (hstep : sys.step a = some sys') : ∃ new, sys'.store.history = sys.store.history ++ new ∧
      sys'.store.log.records = sys.store.log.records ++ new := by
  have hsame : ∀ {s : Store}, s.history = sys.store.history →
      s.log.records = sys.store.log.records → ∃ new, s.history = sys.store.history ++ new ∧
        s.log.records = sys.store.log.records ++ new := fun h1 h2 =>
    ⟨[], by rw [h1, List.append_nil], by rw [h2, List.append_nil]⟩
  have hstore := step_store hstep
  generalize sys'.store = s' at hstore ⊢
  cases hstore with
  | same | apply | compact | leases => exact hsame rfl rfl
  | rotate => exact hsame rfl (rotate_frame sys.store.log).1
  | touch revision =>
    obtain ⟨cache, heq⟩ := getLogEntry_frame sys.store.log revision
    refine hsame rfl ?_
    show (sys.store.log.getLogEntry revision).1.records = _
    rw [heq]
    rfl
  | commit hcommit =>
    obtain ⟨log, hlog, rfl⟩ := Store.commit_eq_ok hcommit
    obtain ⟨-, -, hrecords, -⟩ := commitBatch_spec h.held.files hlog
    exact ⟨_, rfl, hrecords⟩
  | job hrunning => exact absurd rfl ha

variable {job : FilesystemLog.Compaction}

/-- The log after a step of a log compaction. -/
theorem Bare.stepJob_log (h : Bare sys) {through : Nat}
    (hrunning : sys.running = some (through, job)) :
    through ≤ sys.store.mem.compacted ∧
      Replaces sys.store through (job.step sys.store.log (sys.store.mem.live through)).1 := by
  obtain ⟨hthrough, hjob⟩ := h.running through job hrunning
  exact ⟨hthrough, (hjob.step h.held.files fun k r hr hle =>
    h.held.live_of_indexed hthrough hr hle).1⟩

/-- A step of a log compaction leaves no record that was not there. -/
theorem Bare.stepJob_records (h : Bare sys) {through : Nat}
    (hrunning : sys.running = some (through, job)) :
    ∀ p ∈ (job.step sys.store.log (sys.store.mem.live through)).1.records,
      p ∈ sys.store.log.records := by
  rcases (h.stepJob_log hrunning).2 with
    hlog | ⟨before, group, rest, kept, hclosed, hne, hsub, -, -, hlog⟩
  · rw [hlog]
    exact fun p hp => hp
  · rw [hlog]
    exact fun p hp => (mem_records_compactGroup h.held.files hclosed hne hsub).1 hp

theorem stepJob_eq_some (hstep : sys.step .stepJob = some sys') :
    ∃ through job, sys.running = some (through, job) ∧ sys'.store = { sys.store with
      log := (job.step sys.store.log (sys.store.mem.live through)).1 } := by
  unfold System.step at hstep
  split at hstep
  · cases hstep
  · simp only [System.move, System.stepJob] at hstep
    split at hstep
    · cases hstep
    · next through job hrunning =>
      cases hstep
      exact ⟨through, job, hrunning, rfl⟩

/-- A process starts with a head above 0 and all its records in the log. -/
theorem start_log {env : LeaseEnv} {log : FilesystemLog} (hlog : log.Opened)
    (hstart : start env log = .ok sys) :
    0 < sys.store.log.lastRevision ∧ sys.store.log.records = sys.store.history := by
  obtain ⟨store, hstore, hrest⟩ := bind_eq_ok.mp hstart
  cases hrest
  unfold Store.start at hstore
  split at hstore
  · next hzero =>
    have hempty := hlog.files.records_eq_nil hzero
    obtain ⟨s, hcommit, hrest⟩ := bind_eq_ok.mp hstore
    cases hrest
    obtain ⟨log', hcommitBatch, rfl⟩ := Store.commit_eq_ok hcommit
    obtain ⟨-, -, hrecords, hlast, -⟩ := commitBatch_spec hlog.files hcommitBatch
    constructor
    · show 0 < log'.lastRevision
      rw [hlast]
      exact Nat.succ_pos _
    · show log'.records = _
      rw [hrecords, hempty]
  · next hne =>
    cases hstore
    exact ⟨Nat.pos_of_ne_zero hne, rfl⟩

/-- One step: the new process would still find every state. -/
theorem Bare.agree_step (h : Bare sys) (hagree : Agree sys.store.log.records sys.store.history)
    (hkeeps : sys.KeepsOldReads a) (hstep : sys.step a = some sys') :
    Agree sys'.store.log.records sys'.store.history := by
  by_cases hjob : a = .stepJob
  · subst hjob
    have hfiles := (h.step hstep).held.files
    obtain ⟨through, job, hrunning, hstore⟩ := stepJob_eq_some hstep
    rw [hstore] at hfiles ⊢
    have hdrops := agree_of_expendable h.held.files.ascending hfiles.ascending
      (h.stepJob_records hrunning) (hkeeps.2 rfl _ (by simp [keptNext, hrunning]))
    -- The log agreed with the history before, so it is enough to compare with the log.
    exact fun k q => (hdrops k q).trans (hagree k q)
  · obtain ⟨new, hhist, hrecords⟩ := h.step_records hjob hstep
    rw [hhist, hrecords]
    exact hagree.append new

end System

/-- Reads below an old compaction point: along a run of a process whose transactions write no key twice and
whose log compactions drop only what is expendable, a restart would answer every `Get` up to the head with
the state the key had there, in every state of the run. -/
theorem old_reads_kept {env : LeaseEnv} {log : FilesystemLog} {sys₀ : System} (hlog : log.Opened)
    (hstart : System.start env log = .ok sys₀) {actions : List System.Action}
    (heach : Transition.Each System.step System.KeepsOldReads sys₀ actions) (env' : LeaseEnv)
    (opts : Options) :
    Transition.Always System.step (fun sys => sys.store.AnswersOldReads env' opts) sys₀ actions := by
  obtain ⟨hstarted, hrecords⟩ := System.start_log hlog hstart
  intro before t hpre ht
  obtain ⟨hinv, hagree⟩ := Transition.run_invariant_each
    (K := fun sys => System.Inv sys₀.store.history sys₀.store.log.lastRevision sys ∧
      Agree sys.store.log.records sys.store.history)
    (fun s a s' hs hkeeps hstep => ⟨hs.1.step hkeeps.1.request hstep,
      hs.1.toBare.agree_step hs.2 hkeeps hstep⟩) ht (heach.mono hpre)
    ⟨System.Inv.start hlog hstart, fun k q => by rw [hrecords]⟩
  exact hinv.store.answersOldReads (hstarted.trans_le hinv.head_ge) hagree env' opts

/-- A put, a storage compaction at it and the whole log compaction, which drops the first record of the
log. -/
def putAndCompact : List System.Action :=
  System.callAlone 0 (putOne 1) ++ [.compact 2, .rotate, .startJob 0] ++ List.replicate 6 .stepJob

theorem old_reads_kept_putAndCompact : ∃ log sys₀ sys,
    FilesystemLog.openDir ⟨0, 0⟩ [] = .ok log ∧ System.start noLeases log = .ok sys₀ ∧
    Transition.run System.step sys₀ putAndCompact = some sys ∧
    sys.store.log.records.map Prod.fst = [2] ∧
    Transition.Always System.step (fun sys => sys.store.AnswersOldReads noLeases ⟨0, 0⟩) sys₀
      putAndCompact := by
  obtain ⟨log, hopen, sys₀, hstart, sys, hsys, hrecords, heach⟩ :
      ∃ log, openDir ⟨0, 0⟩ [] = .ok log ∧ ∃ sys₀, System.start noLeases log = .ok sys₀ ∧
      ∃ sys, Transition.run System.step sys₀ putAndCompact = some sys ∧
        sys.store.log.records.map Prod.fst = [2] ∧
        Transition.Each System.step System.KeepsOldReads sys₀ putAndCompact := by
    decide +kernel
  exact ⟨log, sys₀, sys, hopen, hstart, hsys, hrecords,
    old_reads_kept (opened_of_empty hopen).1 hstart heach noLeases ⟨0, 0⟩⟩

/-- Two puts of a key, a storage compaction at the second and the whole log compaction, which drops the
first. -/
def overwriteAndCompact : List System.Action :=
  System.callAlone 0 (putOne 1) ++ System.callAlone 1 (putOne 2) ++
    [.compact 3, .rotate, .startJob 0] ++ List.replicate 10 .stepJob

/-- The key had a value at revision 2.  The old process refuses to read there; the new one says that the
key does not exist. -/
theorem restart_forgets_compaction : ∃ sys s',
    System.runFresh noLeases ⟨0, 0⟩ overwriteAndCompact = some sys ∧
    Store.boot noLeases ⟨0, 0⟩ sys.store.log.close = some s' ∧
    (stateAt sys.store.history 2 [1]).map KeyValue.value = some [1] ∧
    sys.store.getAt [1] 2 = .error (.compacted 2 3) ∧
    s'.getAt [1] 2 = .ok { header := createHeader 2 } :=
  by decide +kernel

end CloudEtcd
