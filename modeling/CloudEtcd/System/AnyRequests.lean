/-
# CloudEtcd.System.AnyRequests — what holds in every state of a process, whatever is requested.

`System.Inv` is about transactions that write no key twice.  `System.Bare` is the part that needs no such
condition: the store keeps `Store.Held`, and what is known about waiting and running log compactions is
enough for them to drop nothing that the index refers to.  It holds in every state of every run
(`Bare.of_run`).
-/
import CloudEtcd.Storage.AnyRecords
import CloudEtcd.System.LogCompaction

namespace CloudEtcd

open History

namespace System

/-- The invariant of a process that takes any requests. -/
structure Bare (sys : System) : Prop where
  held : sys.store.Held
  jobs : ∀ through ∈ sys.jobs, through ≤ sys.store.mem.compacted
  running : ∀ through job, sys.running = some (through, job) →
    through ≤ sys.store.mem.compacted ∧ JobInv sys.store through job

variable {sys sys' : System} {a : Action}

/-- The store after a step that is not one of a log compaction. -/
theorem Bare.store_of_ne (h : Bare sys) {store : Store} (hstore : StoreStep sys a store)
    (hne : a ≠ .stepJob) : store.Held ∧ sys.store.Later store ∧
      ∃ fs, store.log.closed = sys.store.log.closed ++ fs := by
  have hsame : ∃ fs, sys.store.log.closed = sys.store.log.closed ++ fs := ⟨[], by simp⟩
  cases hstore with
  | same => exact ⟨h.held, Store.Later.refl _, hsame⟩
  | apply env fails rev =>
    exact ⟨h.held.applyUpTo env fails rev,
      Store.Later.applyUpTo h.held.compacted_le env fails rev, hsame⟩
  | commit hcommit =>
    refine ⟨h.held.commit hcommit, Store.Later.commit h.held.files hcommit, ?_⟩
    obtain ⟨log, hlog, rfl⟩ := Store.commit_eq_ok hcommit
    exact (FilesystemLog.commitBatch_spec h.held.files hlog).2.2.2.2.2.1
  | compact revision =>
    exact ⟨h.held.compact sys.watchers revision, Store.Later.compact _ sys.watchers revision, hsame⟩
  | rotate =>
    obtain ⟨-, hlast, -⟩ := FilesystemLog.rotate_frame sys.store.log
    exact ⟨h.held.rotate, Store.Later.of_log hlast, FilesystemLog.rotate_closed _⟩
  | touch revision =>
    obtain ⟨cache, heq⟩ := FilesystemLog.getLogEntry_frame sys.store.log revision
    refine ⟨h.held.touch revision, Store.Later.of_log (by rw [heq]), [], ?_⟩
    rw [List.append_nil]
    show (sys.store.log.getLogEntry revision).1.closed = _
    rw [heq]
  | job hrunning => exact absurd rfl hne
  | leases leaseManager =>
    exact ⟨{ h.held with }, { Store.Later.refl sys.store with }, hsame⟩

/-- A step of the running log compaction. -/
theorem Bare.stepJob (h : Bare sys) (hstep : sys.stepJob = some sys') : Bare sys' := by
  unfold System.stepJob at hstep
  split at hstep
  · cases hstep
  · next through job hrun =>
    cases hstep
    obtain ⟨hle, hjob⟩ := h.running through job hrun
    obtain ⟨hreplaces, hnext⟩ := hjob.step h.held.files fun k r hr hrle =>
      h.held.live_of_indexed hle hr hrle
    refine ⟨hreplaces.held h.held hle, h.jobs, ?_⟩
    intro t job' hrun'
    obtain ⟨job'', hsome, heq⟩ := Option.map_eq_some_iff.mp hrun'
    cases heq
    exact ⟨hle, hnext _ hsome⟩

theorem Bare.startJob (h : Bare sys) {n : Nat} (hstep : sys.startJob n = some sys') : Bare sys' := by
  unfold System.startJob at hstep
  split at hstep
  · next through hrun hjob =>
    cases hstep
    refine ⟨h.held, fun t ht => h.jobs t (List.mem_of_mem_eraseIdx ht), ?_⟩
    intro t job hrun
    obtain ⟨job', hstart, heq⟩ := Option.map_eq_some_iff.mp hrun
    cases heq
    exact ⟨h.jobs through (List.mem_of_getElem? hjob), JobInv.start h.held.files hstart⟩
  · cases hstep

/-- The store moves on below the log compactions. -/
theorem Bare.withStore (h : Bare sys) (hheld : sys'.store.Held) (hlater : sys.store.Later sys'.store)
    (hclosed : ∃ fs, sys'.store.log.closed = sys.store.log.closed ++ fs)
    (hjobs : ∀ through ∈ sys'.jobs, through ∈ sys.jobs ∨ through ≤ sys'.store.mem.compacted)
    (hrunning : sys'.running = sys.running) : Bare sys' where
  held := hheld
  jobs through hmem := (hjobs through hmem).elim
    (fun hmem => (h.jobs through hmem).trans hlater.compacted) id
  running through job hrun := by
    obtain ⟨hle, hjob⟩ := h.running through job (hrunning ▸ hrun)
    exact ⟨hle.trans hlater.compacted, hjob.later h.held.files hlater hle hclosed⟩

theorem Bare.compact (h : Bare sys) (revision : Nat) : Bare (sys.compact revision) := by
  refine h.withStore (h.held.compact sys.watchers revision)
    (Store.Later.compact sys.store sys.watchers revision) ⟨[], by simp [System.compact, Store.compact]⟩
    (fun through hmem => (List.mem_append.mp hmem).imp_right fun hnew => ?_) rfl
  -- The new job compacts up to the new point.
  rcases Store.mem_compact_cases sys.store.mem sys.watchers revision with heq | ⟨t, -, -, heq⟩
  · simp [Store.compact, heq] at hnew
  · have ht : through = t := by simpa [Store.compact, heq] using hnew
    show through ≤ (sys.store.mem.compact sys.watchers revision).1.compacted
    rw [heq, ht]

/-- Every action keeps the invariant. -/
theorem Bare.step (h : Bare sys) (hstep : sys.step a = some sys') : Bare sys' := by
  cases step_effect hstep with
  | compact revision => exact h.compact revision
  | startJob hstart => exact h.startJob hstart
  | stepJob _ hjob => exact h.stepJob hjob
  | failJob => exact ⟨h.held, h.jobs, nofun⟩
  | other hjobs hrunning hne hstore =>
    obtain ⟨hheld, hlater, hclosed⟩ := h.store_of_ne hstore hne
    exact h.withStore hheld hlater hclosed (fun _ hmem => Or.inl (hjobs ▸ hmem)) hrunning

theorem Bare.start {env : LeaseEnv} {log : FilesystemLog} (hwf : log.WF)
    (hcache : log.cache.ll = []) (hstart : start env log = .ok sys) : Bare sys := by
  obtain ⟨store, hstore, hrest⟩ := bind_eq_ok.mp hstart
  cases hrest
  exact ⟨Store.Held.start hwf hcache hstore, by simp, by simp⟩

/-- The invariant holds in every state of every run. -/
theorem Bare.of_run {env : LeaseEnv} {log : FilesystemLog} {sys₀ : System} {actions : List Action}
    (hwf : log.WF) (hcache : log.cache.ll = []) (hstart : System.start env log = .ok sys₀)
    (hrun : Transition.run System.step sys₀ actions = some sys) : Bare sys :=
  Transition.run_invariant (fun _ _ _ hs hstep => hs.step hstep) hrun (Bare.start hwf hcache hstart)

end System

end CloudEtcd
