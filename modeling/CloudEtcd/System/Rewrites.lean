/-
# CloudEtcd.System.Rewrites — what is left when every file up to the point is rewritten.

`liveRecords` keeps a record if the index still refers to it on one of its keys, and keeps it whole.  An
event that is kept only for a neighbour in its transaction should have a successor: a later record on its
key that is kept as well.  The index has no entry for a key whose last write is a delete at or below the
point, so that this delete is dropped.  Every event has its successor, and the records that are left give
every key its state at the point, exactly if no record is kept for one key that writes such a key
(`rewrite_leaves_successors_iff`).
-/
import CloudEtcd.System.OldReads
import CloudEtcd.System.Reads

namespace CloudEtcd

open History FilesystemLog

namespace Store

/-! ## The records that are left -/

/-- What `liveRecords` keeps of the files that end at or below the point. -/
def rewritten (s : Store) (through : Nat) : LogHistory :=
  ((s.log.eligible through).flatMap LogFile.records).filter (isLive (s.mem.live through))

/-- The records of the files that end above the point, and of the active file. -/
def untouched (s : Store) (through : Nat) : LogHistory :=
  (s.log.ineligible through).flatMap LogFile.records ++ s.log.active.records

/-- The records of the log after all files up to the point have been rewritten. -/
def left (s : Store) (through : Nat) : LogHistory := s.rewritten through ++ s.untouched through

/-- Every event of a record that is kept is the state of its key at the point or has a successor there
that is kept too, and the records that are left give every key its state at the point. -/
structure LeavesSuccessors (s : Store) (through : Nat) : Prop where
  successor : ∀ p ∈ s.rewritten through, ∀ e ∈ p.2.events,
    s.mem.live through e.kv.key p.1 = true ∨
      ∃ q ∈ s.left through, p.1 < q.1 ∧ q.1 ≤ through ∧ Touches q.2 e.kv.key
  state : ∀ k, stateAt (s.left through) through k = stateAt s.history through k

/-- A record that is kept writes keys that have an entry in the index at the point, or a record at or
below it in the files that are not rewritten. -/
def KeepsForAll (s : Store) (through : Nat) : Prop :=
  ∀ p ∈ s.rewritten through, ∀ e ∈ p.2.events,
    s.mem.revisions.getLatestRevisionByKey e.kv.key through ≠ none ∨
      ∃ q ∈ s.untouched through, q.1 ≤ through ∧ Touches q.2 e.kv.key

instance (s : Store) (through : Nat) : Decidable (s.KeepsForAll through) :=
  inferInstanceAs (Decidable (∀ p ∈ s.rewritten through, ∀ e ∈ p.2.events, _ ∨ ∃ q ∈ _, _ ∧ _))

/-- A record that the log no longer has lies below the end of a file that was rewritten. -/
def Whole (s : Store) : Prop :=
  ∀ p ∈ s.history, p ∉ s.log.records →
    ∃ f ∈ s.log.closed, f.last ≤ s.mem.compacted ∧ p.1 ≤ f.last

variable {s : Store} {through : Nat}

section

variable (h : s.Inv)
include h

theorem Inv.records_split (through : Nat) :
    s.log.records = (s.log.eligible through).flatMap LogFile.records ++ s.untouched through := by
  rw [records_eq, untouched, ← List.append_assoc, ← List.flatMap_append,
    eligible_append_ineligible h.files]

theorem Inv.left_sublist (through : Nat) : (s.left through).Sublist s.log.records := by
  rw [h.records_split through]
  exact List.filter_sublist.append (List.Sublist.refl _)

variable {p : Nat × LogRecord}

theorem Inv.mem_history_of_left (hp : p ∈ s.left through) : p ∈ s.history :=
  h.recordsIn p ((h.left_sublist through).subset hp)

theorem Inv.left_wellFormed (through : Nat) : WellFormed (s.left through) :=
  h.records_wellFormed.sublist (h.left_sublist through)

variable {q : Nat × LogRecord}

/-- What is not rewritten comes later. -/
theorem Inv.eligible_lt (hp : p ∈ (s.log.eligible through).flatMap LogFile.records)
    (hq : q ∈ s.untouched through) : p.1 < q.1 := by
  have hasc := h.records_wellFormed.ascending
  rw [h.records_split through] at hasc
  exact (List.pairwise_append.mp hasc).2.2 p hp q hq

theorem Inv.eligible_last_lt {f : LogFile} (hf : f ∈ s.log.eligible through)
    (hq : q ∈ s.untouched through) : f.last < q.1 := by
  have htiled := h.files.closed
  rw [← eligible_append_ineligible h.files through] at htiled
  obtain ⟨mid, heligible, hineligible⟩ := tiled_append.mp htiled
  have hlast := (heligible.of_mem hf).2.2.2
  rcases List.mem_append.mp hq with hq | hq
  · have := (hineligible.record_bounds hq).1
    omega
  · have := hineligible.le
    have := (h.files.active.bounds q hq).1
    omega

theorem Inv.rewritten_le (hp : p ∈ s.rewritten through) : p.1 ≤ through := by
  obtain ⟨f, hf, hpf⟩ := List.mem_flatMap.mp (List.mem_of_mem_filter hp)
  obtain ⟨hclosed, hend⟩ := List.mem_filter.mp hf
  have hlast := ((h.files.closed.of_mem hclosed).1.bounds p hpf).2
  exact hlast.trans (of_decide_eq_true hend)

/-! ## Keys with an entry in the index -/

variable {k : Bytes}

/-- The record behind the entry is kept. -/
theorem Inv.entry_left (hthrough : through ≤ s.mem.applied) {r : Nat}
    (hentry : s.mem.revisions.getLatestRevisionByKey k through = some r) :
    ∃ x e, (r, x) ∈ s.left through ∧ e ∈ x.events ∧ e.kv.key = k ∧
      lastEvent s.history k through = some (r, e) := by
  obtain ⟨e, hlast⟩ := (h.index k).latest_some h.ascending hthrough hentry
  obtain ⟨⟨x, hx, -, he, hk⟩, -⟩ := (lastEvent_eq_some_iff h.wellFormed).mp hlast
  obtain ⟨y, hy⟩ := h.indexed k r (Timeline.mem_of_latest hentry)
  obtain rfl := h.wellFormed.unique hx (h.recordsIn _ hy)
  refine ⟨x, e, ?_, he, hk, hlast⟩
  rw [h.records_split through] at hy
  rcases List.mem_append.mp hy with hy | hy
  · refine List.mem_append_left _ (List.mem_filter.mpr ⟨hy, List.any_eq_true.mpr ⟨e, he, ?_⟩⟩)
    have hkey : e.kv.key = k := hk
    simp [MemoryStorage.live, hkey, hentry]
  · exact List.mem_append_right _ hy

theorem Inv.stateAt_left_of_entry (hthrough : through ≤ s.mem.applied)
    {r : Nat} (hentry : s.mem.revisions.getLatestRevisionByKey k through = some r) :
    stateAt (s.left through) through k = stateAt s.history through k := by
  obtain ⟨x, e, hx, he, hk, hlast⟩ := h.entry_left hthrough hentry
  obtain ⟨⟨-, -, hr, -, -⟩, hmax⟩ := (lastEvent_eq_some_iff h.wellFormed).mp hlast
  have hleft : lastEvent (s.left through) k through = some (r, e) := by
    refine (lastEvent_eq_some_iff (h.left_wellFormed through)).mpr ⟨⟨x, hx, hr, he, hk⟩, ?_⟩
    rintro r' hr' ⟨y, hy, ht⟩
    exact hmax r' hr' ⟨y, h.mem_history_of_left hy, ht⟩
  rw [stateAt, stateAt, hlast, hleft]

/-! ## Keys without one -/

/-- In the files that are not rewritten nothing is missing. -/
theorem Inv.lastEvent_untouched (hwhole : s.Whole) {r : Nat} {e : Event}
    (hlast : lastEvent (s.left s.mem.compacted) k s.mem.compacted = some (r, e))
    {x : LogRecord} (hx : (r, x) ∈ s.untouched s.mem.compacted) :
    lastEvent s.history k s.mem.compacted = some (r, e) := by
  obtain ⟨⟨y, hy, hr, he, hk⟩, hmax⟩ :=
    (lastEvent_eq_some_iff (h.left_wellFormed s.mem.compacted)).mp hlast
  refine (lastEvent_eq_some_iff h.wellFormed).mpr
    ⟨⟨y, h.mem_history_of_left hy, hr, he, hk⟩, ?_⟩
  rintro r' hr' ⟨z, hz, ht⟩
  by_contra hlt
  by_cases hrecord : (r', z) ∈ s.log.records
  · rw [h.records_split s.mem.compacted] at hrecord
    rcases List.mem_append.mp hrecord with hin | hin
    · exact hlt (h.eligible_lt hin hx).le
    · exact hlt (hmax r' hr' ⟨z, List.mem_append_right _ hin, ht⟩)
  · obtain ⟨f, hf, hle, hend⟩ := hwhole _ hz hrecord
    have hbefore := h.eligible_last_lt (List.mem_filter.mpr ⟨hf, decide_eq_true hle⟩) hx
    exact hlt (hend.trans hbefore.le)

theorem Inv.stateAt_left_of_none (hwhole : s.Whole) (hkeeps : s.KeepsForAll s.mem.compacted)
    (hentry : s.mem.revisions.getLatestRevisionByKey k s.mem.compacted = none) :
    stateAt (s.left s.mem.compacted) s.mem.compacted k = stateAt s.history s.mem.compacted k := by
  have hnone : stateAt s.history s.mem.compacted k = none :=
    (h.index k).latest_none h.ascending le_rfl h.compacted_le hentry
  cases hlast : lastEvent (s.left s.mem.compacted) k s.mem.compacted with
  | none => rw [hnone, stateAt, hlast]; rfl
  | some last =>
    obtain ⟨r, e⟩ := last
    obtain ⟨⟨x, hx, hr, he, hk⟩, hmax⟩ :=
      (lastEvent_eq_some_iff (h.left_wellFormed s.mem.compacted)).mp hlast
    rcases List.mem_append.mp hx with hin | hin
    · -- A record that is kept for another key has a later one behind it.
      obtain rfl : e.kv.key = k := hk
      rcases hkeeps _ hin e he with hsome | ⟨q, hq, hle, ht⟩
      · exact absurd hentry hsome
      · have hlt := h.eligible_lt (List.mem_of_mem_filter hin) hq
        have hle' := hmax q.1 hle ⟨q.2, List.mem_append_right _ hq, ht⟩
        dsimp only at hlt
        omega
    · rw [stateAt, stateAt, hlast, h.lastEvent_untouched hwhole hlast hin]

/-! ## Both directions -/

theorem Inv.leavesSuccessors_iff (hwhole : s.Whole) :
    s.LeavesSuccessors s.mem.compacted ↔ s.KeepsForAll s.mem.compacted := by
  constructor
  · intro hleaves p hp e he
    refine or_iff_not_imp_left.mpr fun hentry => ?_
    have hentry := not_not.mp hentry
    -- The last record on the key that is kept has no successor, so that it was not rewritten.
    cases hlast : lastEvent (s.left s.mem.compacted) e.kv.key s.mem.compacted with
    | none =>
      exact absurd ⟨p.2, List.mem_append_left _ hp, e, he, rfl⟩
        (lastEvent_eq_none_iff.mp hlast p.1 (h.rewritten_le hp))
    | some last =>
      obtain ⟨r, e'⟩ := last
      obtain ⟨⟨x, hx, hr, he', hk⟩, hmax⟩ :=
        (lastEvent_eq_some_iff (h.left_wellFormed s.mem.compacted)).mp hlast
      have hkey : e'.kv.key = e.kv.key := hk
      rcases List.mem_append.mp hx with hin | hin
      · rcases hleaves.successor _ hin e' he' with hlive | ⟨q, hq, hlt, hle, ht⟩
        · simp [MemoryStorage.live, hkey, hentry] at hlive
        · have := hmax q.1 hle ⟨q.2, hq, hkey ▸ ht⟩
          dsimp only at hlt
          omega
      · exact ⟨_, hin, hr, e', he', hk⟩
  · intro hkeeps
    refine ⟨fun p hp e he => ?_, fun k => ?_⟩
    · cases hentry : s.mem.revisions.getLatestRevisionByKey e.kv.key s.mem.compacted with
      | some r =>
        obtain ⟨x, e', hx, he', hk, hlast⟩ := h.entry_left h.compacted_le hentry
        obtain ⟨⟨-, -, hr, -, -⟩, hmax⟩ := (lastEvent_eq_some_iff h.wellFormed).mp hlast
        by_cases heq : p.1 = r
        · exact Or.inl (by simp [MemoryStorage.live, hentry, heq])
        · have hle := hmax p.1 (h.rewritten_le hp)
            ⟨p.2, h.mem_history_of_left (List.mem_append_left _ hp), e, he, rfl⟩
          exact Or.inr ⟨_, hx, lt_of_le_of_ne hle heq, hr, e', he', hk⟩
      | none =>
        rcases hkeeps p hp e he with hsome | ⟨q, hq, hle, ht⟩
        · exact absurd hentry hsome
        · exact Or.inr ⟨q, List.mem_append_right _ hq,
            h.eligible_lt (List.mem_of_mem_filter hp) hq, hle, ht⟩
    · cases hentry : s.mem.revisions.getLatestRevisionByKey k s.mem.compacted with
      | some r => exact h.stateAt_left_of_entry h.compacted_le hentry
      | none => exact h.stateAt_left_of_none hwhole hkeeps hentry

end

end Store

/-! ## Nothing is missing behind the rewritten files -/

namespace System

variable {base : LogHistory} {p0 : Nat} {sys sys' : System}

/-- A step that leaves the records as they are. -/
theorem whole_mono {s s' : Store} (h : s.Whole) (hhist : s'.history = s.history)
    (hrecords : s'.log.records = s.log.records) (hclosed : ∃ fs, s'.log.closed = s.log.closed ++ fs)
    (hcompacted : s.mem.compacted ≤ s'.mem.compacted) : s'.Whole := by
  intro p hp hnot
  rw [hhist] at hp
  rw [hrecords] at hnot
  obtain ⟨fs, hfs⟩ := hclosed
  obtain ⟨f, hf, hle, hend⟩ := h p hp hnot
  refine ⟨f, ?_, hle.trans hcompacted, hend⟩
  rw [hfs]
  exact List.mem_append_left _ hf

/-- The replacement of a group. -/
theorem whole_compactGroup {s : Store} (h : s.Inv) (hwhole : s.Whole)
    {before group rest : List LogFile} {kept : LogHistory}
    (hclosed : s.log.closed = before ++ group ++ rest) (hne : group ≠ [])
    (hsub : kept.Sublist (group.flatMap LogFile.records))
    (hle : ∀ f ∈ group, f.last ≤ s.mem.compacted) :
    Store.Whole { s with log := s.log.compactGroup group kept } := by
  have hnew := (compactGroup_spec h.files hclosed hne hsub).1
  obtain ⟨mid', mid, -, hgroup, -⟩ := h.files.split hclosed
  -- The new file ends where the group ends.
  have hend : ∀ f ∈ group, f.last ≤ (compactedFile group kept).last := by
    intro f hf
    obtain ⟨-, -, -, hlast⟩ := tiled_compactedFile hgroup hne hsub
    have := (hgroup.of_mem hf).2.2.2
    change (compactedFile group kept).last + 1 = mid at hlast
    omega
  have hfile : compactedFile group kept ∈ (s.log.compactGroup group kept).closed := by
    rw [hnew]
    exact List.mem_append_right _ List.mem_cons_self
  have hcompacted : (compactedFile group kept).last ≤ s.mem.compacted := by
    obtain ⟨f, hf, hlast⟩ := Tiled.last_getLast hgroup hne
    have heq : (compactedFile group kept).last = f.last := by simp [compactedFile, hf]
    rw [heq]
    exact hle f (List.mem_of_getLast? hf)
  intro p hp hnot
  by_cases hold : p ∈ s.log.records
  · rcases (mem_records_compactGroup h.files hclosed hne hsub).2 hold with hin | ⟨hin, -⟩
    · exact absurd hin hnot
    · obtain ⟨f, hf, hpf⟩ := List.mem_flatMap.mp hin
      exact ⟨_, hfile, hcompacted, (((hgroup.of_mem hf).1.bounds p hpf).2).trans (hend f hf)⟩
  · obtain ⟨f, hf, hfle, hpf⟩ := hwhole p hp hold
    by_cases hin : f ∈ group
    · exact ⟨_, hfile, hcompacted, hpf.trans (hend f hin)⟩
    · refine ⟨f, ?_, hfle, hpf⟩
      rw [hclosed] at hf
      rw [hnew]
      simp only [List.mem_append, List.mem_cons] at hf ⊢
      tauto

theorem Inv.whole_step (h : Inv base p0 sys) (hwhole : sys.store.Whole) {a : Action}
    (hstep : sys.step a = some sys') : sys'.store.Whole := by
  have hstore := step_store hstep
  generalize sys'.store = s' at hstore ⊢
  cases hstore with
  | same => exact hwhole
  | apply env fails rev =>
    have hlater := Store.Later.applyUpTo h.held.compacted_le env fails rev
    exact whole_mono hwhole rfl rfl ⟨[], (List.append_nil _).symm⟩ hlater.compacted
  | compact revision =>
    exact whole_mono hwhole rfl rfl ⟨[], (List.append_nil _).symm⟩
      (Store.Later.compact sys.store sys.watchers revision).compacted
  | leases leaseManager =>
    exact whole_mono hwhole rfl rfl ⟨[], (List.append_nil _).symm⟩ le_rfl
  | rotate =>
    exact whole_mono hwhole rfl (rotate_frame sys.store.log).1 (rotate_closed sys.store.log) le_rfl
  | touch revision =>
    obtain ⟨cache, heq⟩ := getLogEntry_frame sys.store.log revision
    have hlog : (sys.store.touch revision).log = { sys.store.log with cache := cache } := heq
    exact whole_mono hwhole rfl (by rw [hlog]; rfl) ⟨[], by rw [hlog, List.append_nil]⟩ le_rfl
  | commit hcommit =>
    obtain ⟨log, hlog, rfl⟩ := Store.commit_eq_ok hcommit
    obtain ⟨-, -, hrecords, -, -, ⟨fs, hfs⟩, -⟩ := commitBatch_spec h.store.files hlog
    intro p hp hnot
    dsimp only at hp hnot ⊢
    rw [hrecords, List.mem_append, not_or] at hnot
    rcases List.mem_append.mp hp with hp | hp
    · obtain ⟨f, hf, hrest⟩ := hwhole p hp hnot.1
      exact ⟨f, by rw [hfs]; exact List.mem_append_left _ hf, hrest⟩
    · exact absurd hp hnot.2
  | job hrunning =>
    obtain ⟨hthrough, hreplaces⟩ := h.toBare.stepJob_log hrunning
    rcases hreplaces with hlog | ⟨before, group, rest, kept, hclosed, hne, hsub, hle, -, hlog⟩
    · rw [hlog]
      exact hwhole
    · rw [hlog]
      exact whole_compactGroup h.store hwhole hclosed hne hsub fun f hf =>
        (hle f hf).trans hthrough

theorem Reached.whole {env : LeaseEnv} {log : FilesystemLog} {sys₀ sys : System} (hlog : log.Opened)
    (hstart : start env log = .ok sys₀) (hreach : Reached sys₀ sys) : sys.store.Whole := by
  obtain ⟨-, hrecords⟩ := start_log hlog hstart
  obtain ⟨actions, honce, hrun⟩ := hreach
  have hbegin : sys₀.store.Whole := fun p hp hnot => absurd (hrecords ▸ hp) hnot
  refine (Transition.run_invariant_on (P := fun sys =>
    Inv sys₀.store.history sys₀.store.log.lastRevision sys ∧ sys.store.Whole)
    (fun s a s' ha hs hstep => ?_) honce hrun ⟨Inv.start hlog hstart, hbegin⟩).2
  exact ⟨hs.1.step ha.request hstep, hs.1.whole_step hs.2 hstep⟩

end System

/-- In every reachable state, with the index compacted up to a point: rewriting all files up to the point
leaves every event its successor, and the log the states of all keys at the point, exactly if every record
that is kept writes only keys that have an entry in the index at the point, or a record at or below it in
the files that are not rewritten. -/
theorem rewrite_leaves_successors_iff {env : LeaseEnv} {log : FilesystemLog} {sys₀ sys : System}
    (hlog : log.Opened) (hstart : System.start env log = .ok sys₀)
    (hreach : System.Reached sys₀ sys) :
    sys.store.LeavesSuccessors sys.store.mem.compacted ↔
      sys.store.KeepsForAll sys.store.mem.compacted :=
  (hreach.inv hlog hstart).store.leavesSuccessors_iff (hreach.whole hlog hstart)

/-- A delete of key 1. -/
def deleteFirst : TxnRequest := { success := [.deleteRange { key := [1] }] }

/-- One transaction puts two keys, the next one deletes the first of them; the file is closed and the index
compacted. -/
def putBothDeleteFirst : List System.Action :=
  System.callAlone 0 putBoth ++ System.callAlone 1 deleteFirst ++ [.rotate, .compact 3]

/-- The put of the deleted key is kept for its neighbour, its delete is not: the key is back. -/
theorem rewrite_brings_back_deleted : ∃ sys,
    System.runFresh noLeases ⟨0, 0⟩ putBothDeleteFirst = some sys ∧ sys.store.mem.compacted = 3 ∧
    stateAt sys.store.history 3 [1] = none ∧
    (stateAt (sys.store.left 3) 3 [1]).isSome = true ∧
    ¬ sys.store.LeavesSuccessors 3 := by
  obtain ⟨sys, hsys, hcompacted, hgone, hback⟩ : ∃ sys,
      System.runFresh noLeases ⟨0, 0⟩ putBothDeleteFirst = some sys ∧ sys.store.mem.compacted = 3 ∧
      stateAt sys.store.history 3 [1] = none ∧ (stateAt (sys.store.left 3) 3 [1]).isSome = true :=
    by decide +kernel
  refine ⟨sys, hsys, hcompacted, hgone, hback, fun hleaves => ?_⟩
  rw [hleaves.state [1], hgone] at hback
  cases hback

/-- The same with one transaction for each key. -/
def putEachDeleteFirst : List System.Action :=
  System.callAlone 0 (putOne 1) ++
    System.callAlone 1 { success := [.put { key := [2] }] } ++
    System.callAlone 2 deleteFirst ++ [.rotate, .compact 4]

theorem rewrite_leaves_successors_putEach : ∃ sys,
    System.runFresh noLeases ⟨0, 0⟩ putEachDeleteFirst = some sys ∧ sys.store.mem.compacted = 4 ∧
    (sys.store.rewritten 4).map Prod.fst = [3] ∧ sys.store.LeavesSuccessors 4 := by
  obtain ⟨sys, hsys, hcompacted, hrewritten, hkeeps⟩ : ∃ sys,
      System.runFresh noLeases ⟨0, 0⟩ putEachDeleteFirst = some sys ∧ sys.store.mem.compacted = 4 ∧
      (sys.store.rewritten 4).map Prod.fst = [3] ∧ sys.store.KeepsForAll 4 :=
    by decide +kernel
  have honce : ∀ a ∈ putEachDeleteFirst, a.WritesOnce := by decide +kernel
  obtain ⟨log, sys₀, hlog, hstart, hreach⟩ := System.reached_of_runFresh honce hsys
  have hiff := rewrite_leaves_successors_iff hlog hstart hreach
  rw [hcompacted] at hiff
  exact ⟨sys, hsys, hcompacted, hrewritten, hiff.mpr hkeeps⟩

end CloudEtcd
