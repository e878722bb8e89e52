/-
# CloudEtcd.System.Agreement — index and log agree in every reachable state.

A process starts on an opened log (`FilesystemLog.Opened`) and takes the steps of `System.step` in any
order.  The invariant of the system holds at the start and along every run (`Reached.inv`), and
`reached_agrees` reads off what it says about the index and the log.
-/
import CloudEtcd.Persistence.Reopen
import CloudEtcd.System.Invariant

namespace CloudEtcd

open History FilesystemLog

namespace System

variable {env : LeaseEnv} {sys : System}

/-- A process starts with the invariant, whatever its log holds. -/
theorem Core.start {R : TxnRequest → Prop} {log : FilesystemLog} (hwf : log.WF)
    (hcache : log.cache.ll = []) (hstart : start env log = .ok sys) :
    Core R sys.store.history sys.store.log.lastRevision sys := by
  have hbare := Bare.start hwf hcache hstart
  obtain ⟨store, hstore, hrest⟩ := bind_eq_ok.mp hstart
  cases hrest
  refine ⟨hbare, Batcher.Inv.new _, rfl, ?_, by simp, by simp, rfl, ?_, ?_⟩
  · simp [Batcher.accepted, Batcher.new]
  · simp [Batcher.batches, Batcher.inHand, Batcher.new]
  · simp [Batcher.accepted, Batcher.new]

/-- The invariant holds in every state of every run. -/
theorem Core.of_run {log : FilesystemLog} {sys₀ : System} {actions : List Action} (hwf : log.WF)
    (hcache : log.cache.ll = []) (hstart : System.start env log = .ok sys₀)
    (hrun : Transition.run System.step sys₀ actions = some sys) :
    Core (fun _ => True) sys₀.store.history sys₀.store.log.lastRevision sys :=
  Transition.run_invariant (fun _ _ _ hs hstep => hs.step (fun _ _ => trivial) hstep) hrun
    (Core.start hwf hcache hstart)

theorem Inv.start {log : FilesystemLog} (hlog : log.Opened) (hstart : start env log = .ok sys) :
    Inv sys.store.history sys.store.log.lastRevision sys := by
  refine ⟨Core.start hlog.files hlog.cache hstart, ?_⟩
  obtain ⟨store, hstore, hrest⟩ := bind_eq_ok.mp hstart
  cases hrest
  exact (Store.Inv.start hlog.files hlog.history hlog.cache hstore).wellFormed.distinct

/-- A requested transaction writes no key twice. -/
def Action.WritesOnce : Action → Prop
  | .request req => req.WritesOnce
  | _ => True

instance (a : Action) : Decidable a.WritesOnce :=
  match a with
  | .request _ => inferInstanceAs (Decidable (_ ∧ _))
  | .readHead _ | .apply _ _ _ | .evaluate _ | .append _ | .receive _ | .abandon _ | .pick
  | .flush | .deliver | .close | .applyUpTo _ _ _ | .compact _ | .startJob _ | .stepJob | .failJob
  | .rotate | .touch _ | .watchers _ | .leases _ => inferInstanceAs (Decidable True)

theorem Action.WritesOnce.request {a : Action} (ha : a.WritesOnce) (req : TxnRequest)
    (hreq : a = .request req) : req.WritesOnce := by
  subst hreq
  exact ha

/-- The state is reached from the start by some interleaving in which no transaction writes a key
twice. -/
def Reached (start sys : System) : Prop :=
  ∃ actions : List Action, (∀ a ∈ actions, a.WritesOnce) ∧
    Transition.run step start actions = some sys

theorem Reached.inv {log : FilesystemLog} {sys₀ : System}
    (hlog : log.Opened) (hstart : start env log = .ok sys₀) (hreach : Reached sys₀ sys) :
    Inv sys₀.store.history sys₀.store.log.lastRevision sys := by
  obtain ⟨actions, hreq, hrun⟩ := hreach
  exact Transition.run_invariant_on (fun s a s' ha hs hstep => hs.step ha.request hstep) hreq hrun
    (Inv.start hlog hstart)

/-- A run of a process that starts on an empty directory. -/
def runFresh (env : LeaseEnv) (opts : Options) (actions : List Action) : Option System :=
  match openDir opts [] with
  | .error _ => none
  | .ok log =>
    match start env log with
    | .error _ => none
    | .ok sys => Transition.run step sys actions

variable {actions : List Action}

theorem runFresh_eq_some {opts : Options} (hrun : runFresh env opts actions = some sys) :
    ∃ log sys₀, openDir opts [] = .ok log ∧ log.Opened ∧ start env log = .ok sys₀ ∧
      Transition.run step sys₀ actions = some sys := by
  unfold runFresh at hrun
  split at hrun
  · cases hrun
  · next log hopen =>
    split at hrun
    · cases hrun
    · next sys₀ hstart => exact ⟨log, sys₀, hopen, (opened_of_empty hopen).1, hstart, hrun⟩

theorem reached_of_runFresh {opts : Options} (honce : ∀ a ∈ actions, a.WritesOnce)
    (hrun : runFresh env opts actions = some sys) :
    ∃ log sys₀, log.Opened ∧ start env log = .ok sys₀ ∧ Reached sys₀ sys := by
  obtain ⟨log, sys₀, -, hlog, hstart, hactions⟩ := runFresh_eq_some hrun
  exact ⟨log, sys₀, hlog, hstart, actions, honce, hactions⟩

/-- A `Txn` call that nothing else interleaves with and that is not rejected. -/
def callIn (env : LeaseEnv) (i : Nat) (req : TxnRequest) : List Action :=
  [.request req, .readHead i, .apply i env fun _ => false, .evaluate i, .append i, .pick,
    .flush, .deliver, .receive i, .apply i env fun _ => false]

def callAlone (i : Nat) (req : TxnRequest) : List Action := callIn noLeases i req

end System

/-! ## Agreement -/

/-- Index and log agree. -/
structure Store.Agrees (s : Store) : Prop where
  compacted_le : s.mem.compacted ≤ s.mem.applied
  applied_le : s.mem.applied ≤ s.log.lastRevision
  ascending : ∀ k, (s.mem.revisions.revisionsOf k).Pairwise (· < ·)
  /-- Above the compaction point the index has exactly the applied writes of the key. -/
  above : ∀ k r, s.mem.compacted < r →
    (r ∈ s.mem.revisions.revisionsOf k ↔ r ≤ s.mem.applied ∧ Writes s.history k r)
  /-- At or below it the index has at most the key's last write there. -/
  below : ∀ k, ∀ r ∈ s.mem.revisions.revisionsOf k, r ≤ s.mem.compacted →
    ∃ e, lastEvent s.history k s.mem.compacted = some (r, e)
  /-- That write is missing only if there is none or it is a delete. -/
  missing : ∀ k, (∀ r ∈ s.mem.revisions.revisionsOf k, s.mem.compacted < r) →
    ∀ r e, lastEvent s.history k s.mem.compacted = some (r, e) → e.type = .delete
  /-- The files still hold the record of every indexed revision, it has an event on the key, and it
  is what a lookup returns. -/
  held : ∀ k, ∀ r ∈ s.mem.revisions.revisionsOf k, ∃ x e, (r, x) ∈ s.history ∧
    s.log.fileEntry r = .ok x ∧ s.log.read r = .ok x ∧ findEvent x k = some e
  /-- The lookups of the compares, of `put` and of `get` succeed at every revision. -/
  fetches : ∀ k q, ∃ event, s.mem.prevEvent s.log.read k q = .ok event
  gets : ∀ k q req, ∃ resp, s.mem.getKey s.log.read req k q = .ok resp

theorem Store.Inv.agrees {s : Store} (h : s.Inv) : s.Agrees := by
  have hheld : ∀ k, ∀ r ∈ s.mem.revisions.revisionsOf k, ∃ x e, (r, x) ∈ s.history ∧
      s.log.fileEntry r = .ok x ∧ s.log.read r = .ok x ∧ findEvent x k = some e := by
    intro k r hr
    obtain ⟨x, hx⟩ := h.indexed k r hr
    have hhist := h.recordsIn _ hx
    obtain ⟨⟨y, hy, htouch⟩, -⟩ := (h.index k).written r hr
    rw [h.wellFormed.unique hy hhist] at htouch
    obtain ⟨e, he⟩ := findEvent_isSome_iff.mpr htouch
    exact ⟨x, e, hhist, (fileEntry_eq_ok h.files).mpr hx,
      read_of_mem h.files h.cacheIn h.recordsIn h.wellFormed.ascending hx, he⟩
  constructor
  · exact h.compacted_le
  · exact h.applied_le
  · exact fun k => (h.index k).strict h.wellFormed
  · intro k r hgt
    constructor
    · exact fun hr => ⟨((h.index k).written r hr).2, ((h.index k).written r hr).1⟩
    · exact fun ⟨hle, hw⟩ => (h.index k).above r hgt hle hw
  · intro k r hr hle
    obtain ⟨⟨x, hx, e, he, hk⟩, -⟩ := (h.index k).written r hr
    exact ⟨e, (lastEvent_eq_some_iff h.wellFormed).mpr
      ⟨⟨x, hx, hle, he, hk⟩, (h.index k).below r hr hle⟩⟩
  · intro k hall r e hlast
    cases htype : e.type with
    | delete => rfl
    | put =>
      have hgt := hall r ((h.index k).kept r e hlast htype)
      obtain ⟨⟨x, hx, hle, -⟩, -⟩ := (lastEvent_eq_some_iff h.wellFormed).mp hlast
      omega
  · exact hheld
  · exact h.coherent.fetches.prevEvent
  · exact fun k q req => h.coherent.fetches.getKey req k q

/-- Index and log agree in every state that a process reaches, whatever the interleaving of
transactions, applies, storage compactions and background log compactions. -/
theorem reached_agrees {env : LeaseEnv} {log : FilesystemLog} {sys₀ sys : System}
    (hlog : log.Opened) (hstart : System.start env log = .ok sys₀)
    (hreach : System.Reached sys₀ sys) : sys.store.Agrees :=
  (hreach.inv hlog hstart).store.agrees

/-- A put of a value under the one-byte key 1. -/
def putOne (v : UInt8) : TxnRequest := { success := [.put { key := [1], value := [v] }] }

/-- Two puts of a key, a storage compaction at the second and the log compaction it starts. -/
def putTwiceAndCompact : List System.Action :=
  System.callAlone 0 (putOne 1) ++ System.callAlone 1 (putOne 2) ++
    [.compact 3, .rotate, .startJob 0, .stepJob, .stepJob]

theorem reached_agrees_putTwiceAndCompact :
    ∃ sys, System.runFresh noLeases ⟨0, 0⟩ putTwiceAndCompact = some sys ∧
      sys.store.mem.compacted = 3 ∧ sys.store.mem.revisions.revisionsOf [1] = [3] ∧
      sys.store.Agrees := by
  obtain ⟨sys, hsys, hcompacted, hrevisions⟩ : ∃ sys,
      System.runFresh noLeases ⟨0, 0⟩ putTwiceAndCompact = some sys ∧
      sys.store.mem.compacted = 3 ∧ sys.store.mem.revisions.revisionsOf [1] = [3] :=
    by decide +kernel
  have honce : ∀ a ∈ putTwiceAndCompact, a.WritesOnce := by decide +kernel
  obtain ⟨log, sys₀, hlog, hstart, hreach⟩ := System.reached_of_runFresh honce hsys
  exact ⟨sys, hsys, hcompacted, hrevisions, reached_agrees hlog hstart hreach⟩

end CloudEtcd
