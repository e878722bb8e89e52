/-
# CloudEtcd.System.LeaseRestart — the keys of a lease after compactions and a restart.

A restart rebuilds the lease table from the records that the files still hold.  A put that repeats the
lease of its key attaches nothing, because the put before it already did; so if a log compaction drops
the put that attached the key and keeps the one that repeats its lease, the key is on no list after the
restart, and outlives its lease.

A put that does not repeat the lease attaches its key wherever the replay starts.  So the lists are complete
if no put at or below the compaction point repeats a lease (`FreshUpTo`): a put above the point that does
has the put before it in the files, and attaches with it (`Inv.attached_upTo`, by induction along the
repeating puts of a key).
-/
import CloudEtcd.Lease.Attachments
import CloudEtcd.Lease.Lifetime
import CloudEtcd.System.Metadata
import CloudEtcd.System.OldReads

namespace CloudEtcd

open History LeaseManager

/-! ## Records that leave every leased key on a list -/

/-- No put up to the point repeats the lease of its key.  The keys of lease records are none of the
clients'. -/
def FreshUpTo (hist : LogHistory) (n : Nat) : Prop :=
  ∀ p ∈ hist, p.1 ≤ n → ∀ e ∈ p.2.events, e.type = .put → parseLeaseKey e.kv.key = none →
    e.kv.lease ≠ 0 → e.kv.lease ≠ oldLease e

instance FreshUpTo.decidable (hist : LogHistory) (n : Nat) : Decidable (FreshUpTo hist n) :=
  inferInstanceAs (Decidable (∀ p ∈ hist, _ → ∀ e ∈ p.2.events, _ → _ → _ → _))

variable {p : Nat × LogRecord} {e : Event} {records hist : LogHistory}

theorem FreshUpTo.append {n : Nat} (h : FreshUpTo hist n) {new : LogHistory}
    (hnew : ∀ p ∈ new, n < p.1) : FreshUpTo (hist ++ new) n := by
  intro p hp hle
  rcases List.mem_append.mp hp with hp | hp
  · exact h p hp hle
  · exact absurd (hnew p hp) (not_lt.mpr hle)

/-- Events that are not on the key leave it attached. -/
theorem attached_append {k : Bytes} {id : Int} {new : LogHistory}
    (h : (Listing.ofEvents k id (eventsOf records)).Attached)
    (hother : ∀ p ∈ new, ∀ e ∈ p.2.events, e.kv.key ≠ k) :
    (Listing.ofEvents k id (eventsOf (records ++ new))).Attached := by
  rw [eventsOf, List.flatMap_append, Listing.ofEvents_append]
  refine h.foldl fun e he hk => ?_
  obtain ⟨p, hp, he⟩ := List.mem_flatMap.mp he
  exact absurd hk (hother p hp e he)

/-- A put leaves its key on the list of its lease: it attaches the key, or repeats a lease that the key is
attached to. -/
theorem attached_of_put (hd : (p.2.events.map (·.kv.key)).Nodup) (he : e ∈ p.2.events)
    (hparse : parseLeaseKey e.kv.key = none)
    (hrepeats : e.kv.lease = oldLease e →
      (Listing.ofEvents e.kv.key e.kv.lease (eventsOf records)).Attached) :
    (Listing.ofEvents e.kv.key e.kv.lease (eventsOf (records ++ [p]))).Attached := by
  -- The record has no other event on the key.
  have hstay : ∀ e' ∈ p.2.events, e'.kv.key = e.kv.key →
      e'.kv.lease = e.kv.lease ∨ oldLease e' ≠ e.kv.lease := fun e' he' hk =>
    Or.inl (by rw [event_unique (ρ := LogRecord) hd he' he hk])
  rw [eventsOf, List.flatMap_append, List.flatMap_singleton, Listing.ofEvents_append]
  by_cases hsame : e.kv.lease = oldLease e
  · exact (hrepeats hsame).foldl hstay
  · obtain ⟨before, after, hsplit⟩ := List.append_of_mem he
    rw [hsplit, List.foldl_append, List.foldl_cons]
    refine Listing.Attached.foldl (Listing.attached_step hparse rfl rfl hsame) fun e' he' => ?_
    exact hstay e' (hsplit ▸ by simp [he'])

/-! ## A restart -/

namespace Store

variable {s : Store}

/-- After closing the log and starting again, every key whose current value has a lease is in the key
list of that lease, in the table or in the delete queue. -/
def KeepsAttachments (env : LeaseEnv) (opts : Options) (s : Store) : Prop :=
  ∃ s', boot env opts s.log.close = some s' ∧
    ∀ k kv, parseLeaseKey k = none → stateAt s'.history s'.log.lastRevision k = some kv →
      kv.lease ≠ 0 → s'.mem.leaseManager.Attached k kv.lease

section

variable (h : s.Inv)
include h

/-- The files have the last put of a key before a record above the compaction point. -/
theorem Inv.mem_of_last_put {q : Nat} (hq : s.mem.compacted ≤ q) (hp : p ∈ s.history)
    (he : e ∈ p.2.events) (hput : e.type = .put)
    (hlast : ∀ p' ∈ s.history, p.1 < p'.1 → p'.1 ≤ q → ∀ e' ∈ p'.2.events,
      e'.kv.key ≠ e.kv.key) : p ∈ s.log.records := by
  rcases Nat.lt_or_ge s.mem.compacted p.1 with hlt | hle
  · exact h.tail p hp hlt
  · -- The index has the last put of a key at or below the compaction point.
    have hevent : lastEvent s.history e.kv.key s.mem.compacted = some (p.1, e) := by
      refine (lastEvent_eq_some_iff h.wellFormed).mpr ⟨⟨p.2, hp, hle, he, rfl⟩, ?_⟩
      rintro r hr ⟨x, hx, e', he', hk⟩
      exact not_lt.mp fun hlt => hlast (r, x) hx hlt (hr.trans hq) e' he' hk
    obtain ⟨x, hx⟩ := h.indexed _ _ ((h.index e.kv.key).kept p.1 e hevent hput)
    obtain rfl := h.wellFormed.unique hp (h.recordsIn _ hx)
    exact hx

/-- Every put with a lease in the files leaves its key on the list of the lease. -/
theorem Inv.attached_upTo (hfresh : FreshUpTo s.history s.mem.compacted)
    (hprev : ∀ p ∈ s.history, ∀ e ∈ p.2.events,
      e.prevKv = stateAt s.history (p.1 - 1) e.kv.key) {before after : LogHistory}
    (hsplit : s.log.records = before ++ p :: after) (he : e ∈ p.2.events) (hput : e.type = .put)
    (hparse : parseLeaseKey e.kv.key = none) (hlease : e.kv.lease ≠ 0) :
    (Listing.ofEvents e.kv.key e.kv.lease (eventsOf (before ++ [p]))).Attached := by
  induction hr : p.1 using Nat.strong_induction_on generalizing p e before after with
  | _ r ih =>
    subst hr
    have hmem : p ∈ s.log.records := hsplit ▸ by simp
    have hp := h.recordsIn p hmem
    refine attached_of_put (h.wellFormed.distinct p hp) he hparse fun hsame => ?_
    have hgt : s.mem.compacted < p.1 := not_le.mp fun hle =>
      hfresh p hp hle e he hput hparse hlease hsame
    -- The lease is repeated, so the value before it has the lease too.
    cases hkv : e.prevKv with
    | none =>
      rw [oldLease, hkv] at hsame
      exact absurd hsame hlease
    | some kv =>
      rw [oldLease, hkv, Option.elim_some] at hsame
      rw [hprev p hp e he] at hkv
      obtain ⟨p₀, hp₀, hle, e₀, he₀, hput₀, rfl, hk, hlast⟩ :=
        exists_put_of_state h.wellFormed hkv
      have hmem₀ : p₀ ∈ s.log.records :=
        h.mem_of_last_put (q := p.1 - 1) (by omega) hp₀ he₀ hput₀ fun p' hp' hlt hle' e' he' =>
          hk ▸ hlast p' hp' hlt hle' e' he'
      -- It lies before the record in the files, with nothing on the key in between.
      have hasc := h.files.ascending
      have hbefore : p₀ ∈ before := by
        rw [hsplit] at hmem₀ hasc
        refine (List.mem_append.mp hmem₀).resolve_right fun hin => ?_
        rcases List.mem_cons.mp hin with rfl | hin
        · omega
        · have := (List.pairwise_cons.mp (List.pairwise_append.mp hasc).2.1).1 p₀ hin
          omega
      obtain ⟨first, rest, rfl⟩ := List.append_of_mem hbefore
      have hsplit₀ : s.log.records = first ++ p₀ :: (rest ++ p :: after) := by
        rw [hsplit]
        simp
      have hat := ih p₀.1 (by omega) hsplit₀ he₀ hput₀ (hk ▸ hparse) (hsame ▸ hlease) rfl
      rw [hk, ← hsame] at hat
      rw [show first ++ p₀ :: rest = first ++ [p₀] ++ rest by simp]
      refine attached_append hat fun q hq e' he' => ?_
      have hq' : q ∈ s.log.records := hsplit ▸ by simp [hq]
      rw [hsplit] at hasc
      have hlt : p₀.1 < q.1 := (List.pairwise_cons.mp
        (List.pairwise_append.mp (List.pairwise_append.mp hasc).1).2.1).1 q hq
      have hlt' : q.1 < p.1 :=
        (List.pairwise_append.mp hasc).2.2 q (by simp [hq]) p List.mem_cons_self
      exact hlast q (h.recordsIn q hq') hlt (by omega) e' he'

theorem Inv.keepsAttachments (hstarted : 0 < s.log.lastRevision)
    (hfresh : FreshUpTo s.history s.mem.compacted)
    (hprev : ∀ p ∈ s.history, ∀ e ∈ p.2.events,
      e.prevKv = stateAt s.history (p.1 - 1) e.kv.key) (env : LeaseEnv) (opts : Options) :
    s.KeepsAttachments env opts := by
  obtain ⟨s', hboot, -, hhist, -, -, hlast, hmem⟩ := h.boot_close hstarted env opts
  refine ⟨s', hboot, fun k kv hparse hstate hlease => ?_⟩
  rw [hmem, MemoryStorage.replayLog_leases]
  refine (attached_foldl_new hlease _).mpr ?_
  rw [hhist, hlast] at hstate
  obtain ⟨p, hp, -, e, he, hput, rfl, rfl, hmax⟩ :=
    exists_put_of_state h.records_wellFormed hstate
  obtain ⟨before, after, hsplit⟩ := List.append_of_mem hp
  have hat := h.attached_upTo hfresh hprev hsplit he hput hparse hlease
  rw [hsplit, show before ++ p :: after = before ++ [p] ++ after by simp]
  -- Nothing after the put is on the key.
  refine attached_append hat fun q hq e' he' => ?_
  have hasc := h.files.ascending
  have hq' : q ∈ s.log.records := hsplit ▸ by simp [hq]
  rw [hsplit] at hasc
  exact hmax q hq' ((List.pairwise_cons.mp (List.pairwise_append.mp hasc).2.1).1 q hq)
    (h.head q (h.recordsIn q hq')) e' he'

end

end Store

/-! ## Runs -/

namespace System

variable {base : LogHistory} {p0 : Nat} {sys sys' : System}

/-- The revision that a storage compaction asks for. -/
def Action.compacts : Action → Option Nat
  | .compact revision => some revision
  | _ => none

/-- A transaction that is requested writes no key twice, and no put up to a point to which a storage
compaction moves repeats the lease of its key. -/
def CompactsFresh (sys : System) (a : Action) : Prop :=
  a.WritesOnce ∧ ∀ revision ∈ a.compacts,
    sys.store.mem.compacted < sys.store.mem.compactThrough sys.watchers revision →
      FreshUpTo sys.store.history (sys.store.mem.compactThrough sys.watchers revision)

instance decidableCompactsFresh (sys : System) (a : Action) : Decidable (sys.CompactsFresh a) :=
  inferInstanceAs (Decidable (_ ∧ ∀ revision ∈ a.compacts, _ → _))

/-- In a process that started without events, every event carries the state of its key. -/
theorem Inv.prevKv_eq (h : Inv base p0 sys) (hp0 : ∀ p ∈ base, p.1 ≤ p0)
    (hbase : ∀ p ∈ base, p.2.events = []) (hp : p ∈ sys.store.history) (he : e ∈ p.2.events) :
    e.prevKv = stateAt sys.store.history (p.1 - 1) e.kv.key := by
  have hdated : Dated base := by
    intro p hp e he
    rw [hbase p hp] at he
    cases he
  rw [h.history] at hp
  rcases List.mem_append.mp hp with hp | hp
  · rw [hbase p hp] at he
    cases he
  · obtain ⟨a, ha, rfl⟩ := List.mem_map.mp hp
    exact (h.chained hp0 hdated ha he).prevKv

/-- One step keeps the puts up to the compaction point fresh. -/
theorem Bare.fresh_step (h : Bare sys) (hfresh : FreshUpTo sys.store.history sys.store.mem.compacted)
    {a : Action} (ha : sys.CompactsFresh a) {store : Store} (hstore : StoreStep sys a store) :
    FreshUpTo store.history store.mem.compacted := by
  cases hstore with
  | same | rotate | touch revision | job hrunning | leases leaseManager => exact hfresh
  | apply env fails rev =>
    show FreshUpTo _ (MemoryStorage.applyUpTo sys.store.mem env _ rev).1.compacted
    rw [MemoryStorage.applyUpTo, (Store.applyNext_frame env _ _ _).2.1]
    exact hfresh
  | commit hcommit =>
    obtain ⟨log, -, rfl⟩ := Store.commit_eq_ok hcommit
    refine hfresh.append fun p hp => ?_
    have h1 := (Store.mem_numberFrom hp).1
    have h2 := h.held.compacted_le
    have h3 := h.held.applied_le
    show sys.store.mem.compacted < p.1
    omega
  | compact revision =>
    by_cases hle : sys.store.mem.compactThrough sys.watchers revision ≤ sys.store.mem.compacted
    · simpa [Store.compact, MemoryStorage.compact, hle] using hfresh
    · simpa [Store.compact, MemoryStorage.compact, hle] using ha.2 revision rfl (not_le.mp hle)

end System

/-- Lease attachments survive compaction and restart: along a run of a process that began on an empty
directory, with transactions that write no key twice and storage compactions only up to points where no put
repeats the lease of its key, a restart would find every key that has a lease on a list of it, in every
state of the run. -/
theorem attachments_survive {env : LeaseEnv} {opts₀ : Options} {log : FilesystemLog} {sys₀ : System}
    (hopen : FilesystemLog.openDir opts₀ [] = .ok log) (hstart : System.start env log = .ok sys₀)
    {actions : List System.Action}
    (heach : Transition.Each System.step System.CompactsFresh sys₀ actions) (env' : LeaseEnv)
    (opts : Options) :
    Transition.Always System.step (fun sys => sys.store.KeepsAttachments env' opts) sys₀ actions := by
  obtain ⟨hopened, hnil, -⟩ := FilesystemLog.opened_of_empty hopen
  have hinv := System.Inv.start hopened hstart
  have hbase : ∀ p ∈ sys₀.store.history, p.2.events = [] := by
    rcases System.start_history hstart with heq | hempty
    · simp [heq, hnil]
    · exact hempty
  intro before t hpre ht
  obtain ⟨ht, hfresh⟩ := Transition.run_invariant_each
    (K := fun sys => System.Inv sys₀.store.history sys₀.store.log.lastRevision sys ∧
      FreshUpTo sys.store.history sys.store.mem.compacted)
    (fun s a s' hs ha hstep => ⟨hs.1.step ha.1.request hstep,
      hs.1.toBare.fresh_step hs.2 ha (System.step_store hstep)⟩) ht (heach.mono hpre)
    ⟨hinv, fun p hp _ e he => by rw [hbase p hp] at he; cases he⟩
  exact ht.store.keepsAttachments ((System.start_log hopened hstart).1.trans_le ht.head_ge) hfresh
    (fun p hp e he => ht.prevKv_eq hinv.held.head hbase hp he) env' opts

/-- A grant, a put with the lease, a storage compaction at it and the whole log compaction. -/
def attachAndCompact : List System.Action :=
  System.callIn minuteLeases 0 { success := [.put { key := leaseKey 7 }] } ++
    System.callIn minuteLeases 1 { success := [.put { key := [1], lease := 7 }] } ++
    [.compact 3, .rotate, .startJob 0] ++ List.replicate 8 .stepJob

theorem attachments_survive_attachAndCompact : ∃ log sys₀ sys,
    FilesystemLog.openDir ⟨0, 0⟩ [] = .ok log ∧ System.start minuteLeases log = .ok sys₀ ∧
    Transition.run System.step sys₀ attachAndCompact = some sys ∧
    sys.store.log.records.map Prod.fst = [2, 3] ∧
    Transition.Always System.step (fun sys => sys.store.KeepsAttachments minuteLeases ⟨0, 0⟩) sys₀
      attachAndCompact := by
  obtain ⟨log, hopen, sys₀, hstart, sys, hsys, hrecords, heach⟩ :
      ∃ log, FilesystemLog.openDir ⟨0, 0⟩ [] = .ok log ∧
      ∃ sys₀, System.start minuteLeases log = .ok sys₀ ∧
      ∃ sys, Transition.run System.step sys₀ attachAndCompact = some sys ∧
        sys.store.log.records.map Prod.fst = [2, 3] ∧
        Transition.Each System.step System.CompactsFresh sys₀ attachAndCompact := by
    decide +kernel
  exact ⟨log, sys₀, sys, hopen, hstart, hsys, hrecords,
    attachments_survive hopen hstart heach minuteLeases ⟨0, 0⟩⟩

/-- The same with a second put that repeats the lease; the compaction drops the first. -/
def repeatAndCompact : List System.Action :=
  System.callIn minuteLeases 0 { success := [.put { key := leaseKey 7 }] } ++
    System.callIn minuteLeases 1 { success := [.put { key := [1], lease := 7 }] } ++
    System.callIn minuteLeases 2 { success := [.put { key := [1], lease := 7 }] } ++
    [.compact 4, .rotate, .startJob 0] ++ List.replicate 12 .stepJob

/-- After the restart the key still has the lease, and the lease is in the table, but the key is on no
list. -/
theorem restart_drops_attachment : ∃ sys s',
    System.runFresh minuteLeases ⟨0, 0⟩ repeatAndCompact = some sys ∧
    Store.boot minuteLeases ⟨0, 0⟩ sys.store.log.close = some s' ∧
    sys.store.mem.leaseManager.Attached [1] 7 ∧
    (stateAt s'.history s'.log.lastRevision [1]).map KeyValue.lease = some 7 ∧
    s'.mem.leaseManager.hasLease 7 = true ∧ ¬ s'.mem.leaseManager.Attached [1] 7 := by
  simp only [attached_iff]
  decide +kernel

end CloudEtcd
