/-
# CloudEtcd.Lease.Replay — replaying the log over a live lease table (`MemoryStorage.ForceReplayLog`).

`ForceReplayLog` clears the index and applies every record of the log again.  The lease table is not
cleared, so each grant, attachment, detachment and revocation of the log meets its own result.  What an event
means for one lease is a `LeaseMove`, and a replay is a fold of moves over what the table has for the
lease.

A fold that starts with more keys ends with more keys (`Below.replay`), so over a live table, which never
has more than the log gives it, a replay ends with the leases and the keys of a fresh one (`replay_same`).
Hence nothing changes if no committed event is waiting to be applied and the live table has the leases and
the keys that the log gives, with the TTLs of their last grants (`replay_changes_nothing`).
-/
import CloudEtcd.Lease.Lifetime
import CloudEtcd.Storage.Restart

namespace CloudEtcd

open History LeaseManager MemoryStorage FilesystemLog

/-! ## One lease under the events of the log -/

/-- What the log says of a lease; the deadline is not in it. -/
structure LeaseEntry where
  keys : List Bytes
  ttl : Int
  deriving DecidableEq, Repr

/-- A lease without its deadline. -/
def Lease.entry (lease : Lease) : LeaseEntry := ⟨lease.keys, lease.ttl⟩

/-- The entry of a lease in the table. -/
def LeaseManager.entry (m : LeaseManager) (id : Int) : Option LeaseEntry :=
  (m.leases.lookup id).map Lease.entry

/-- What an event means for one lease. -/
inductive LeaseMove where
  | grant (ttl : Int)
  | revoke
  | attach (key : Bytes)
  | detach (key : Bytes)

namespace LeaseMove

/-- What an event means for the lease, if anything. -/
def of (unmarshal : Bytes → Option Int) (id : Int) (event : Event) : Option LeaseMove :=
  match parseLeaseKey event.kv.key with
  | some id' =>
    if id' = id then
      match event.type with
      | .put => (unmarshal event.kv.value).map .grant
      | .delete => some .revoke
    else none
  | none =>
    if event.kv.lease = oldLease event ∨ id = 0 then none
    else if event.kv.lease = id then some (.attach event.kv.key)
    else if oldLease event = id then some (.detach event.kv.key)
    else none

/-- The effect on the entry. -/
def apply : LeaseMove → Option LeaseEntry → Option LeaseEntry
  | .grant ttl, x => some ⟨x.elim [] LeaseEntry.keys, ttl⟩
  | .revoke, _ => none
  | .attach key, x => some ⟨x.elim [] LeaseEntry.keys ++ [key], x.elim 0 LeaseEntry.ttl⟩
  | .detach key, x => x.bind fun e =>
    if e.keys.erase key = [] then none else some ⟨e.keys.erase key, e.ttl⟩

end LeaseMove

namespace LeaseManager

variable {env : LeaseEnv} {m : LeaseManager} {id : Int}

theorem entry_attach (id' : Int) (key : Bytes) : (m.attach env id' key).entry id =
    if id' = id then (LeaseMove.attach key).apply (m.entry id) else m.entry id := by
  unfold attach entry
  by_cases hid : id' = id
  · subst hid
    rw [if_pos rfl, AList.lookup_insert]
    cases m.leases.lookup id' <;> rfl
  · rw [if_neg hid, AList.lookup_insert_ne (Ne.symm hid)]

theorem entry_detach (id' : Int) (key : Bytes) : (m.detach id' key).entry id =
    if id' = id then (LeaseMove.detach key).apply (m.entry id) else m.entry id := by
  unfold detach entry
  by_cases hid : id' = id
  · subst hid
    rw [if_pos rfl]
    cases hl : m.leases.lookup id' with
    | none => simp [hl, LeaseMove.apply]
    | some lease =>
      dsimp only [Option.map_some, LeaseMove.apply, Option.bind_some, Lease.entry]
      split
      · simp
      · simp [Lease.entry]
  · rw [if_neg hid]
    cases m.leases.lookup id' with
    | none => rfl
    | some lease =>
      dsimp only
      split
      · rw [AList.lookup_erase_ne (Ne.symm hid)]
      · rw [AList.lookup_insert_ne (Ne.symm hid)]

theorem entry_retire (id' : Int) :
    (m.retire id').entry id = if id' = id then none else m.entry id := by
  unfold retire entry
  by_cases hid : id' = id
  · subst hid
    cases hl : m.leases.lookup id' <;> simp [hl]
  · rw [if_neg hid]
    cases m.leases.lookup id' with
    | none => rfl
    | some lease => rw [AList.lookup_erase_ne (Ne.symm hid)]

theorem entry_leaseKeepAlive {m' : LeaseManager} {now id' ttl : Int}
    (h : m.leaseKeepAlive now id' = some (m', ttl)) : m'.entry id = m.entry id := by
  unfold leaseKeepAlive at h
  split at h
  · cases h
  · obtain ⟨lease, hlease, heq⟩ := Option.map_eq_some_iff.mp h
    cases heq
    unfold entry
    by_cases hid : id = id'
    · subst hid
      rw [AList.lookup_insert, hlease]
      rfl
    · rw [AList.lookup_insert_ne hid]

theorem entry_onLeaseRecord (id' : Int) (e : Event) : (m.onLeaseRecord env id' e).entry id =
    if id' = id then
      match e.type with
      | .put => (env.unmarshal e.kv.value).elim (m.entry id) fun ttl =>
          (LeaseMove.grant ttl).apply (m.entry id)
      | .delete => LeaseMove.revoke.apply (m.entry id)
    else m.entry id := by
  cases htype : e.type with
  | put =>
    rw [onLeaseRecord, htype]
    dsimp only
    cases env.unmarshal e.kv.value with
    | none => simp
    | some ttl =>
      unfold entry
      by_cases hid : id' = id
      · subst hid
        simp only [AList.lookup_insert, if_true]
        cases m.leases.lookup id' <;> rfl
      · simp [hid, AList.lookup_insert_ne (Ne.symm hid)]
  | delete =>
    rw [onLeaseRecord_delete htype, entry_retire]
    rfl

/-- `OnLogEvent` moves each lease as the event says. -/
theorem entry_onLogEvent (e : Event) : (m.onLogEvent env e).entry id =
    (LeaseMove.of env.unmarshal id e).elim (m.entry id) fun move => move.apply (m.entry id) := by
  unfold onLogEvent LeaseMove.of
  cases hparse : parseLeaseKey e.kv.key with
  | some id' =>
    dsimp only
    rw [entry_onLeaseRecord]
    split
    · cases e.type with
      | put => cases env.unmarshal e.kv.value <;> rfl
      | delete => rfl
    · rfl
  | none =>
    show entry (if e.kv.lease ≠ oldLease e ∧ oldLease e ≠ 0 then
      (if e.kv.lease ≠ 0 ∧ e.kv.lease ≠ oldLease e then m.attach env e.kv.lease e.kv.key else m).detach
        (oldLease e) e.kv.key
      else if e.kv.lease ≠ 0 ∧ e.kv.lease ≠ oldLease e then m.attach env e.kv.lease e.kv.key else m) id = _
    generalize oldLease e = old
    generalize e.kv.lease = new
    -- A lease cannot both gain and lose the key.
    by_cases hsame : new = old
    · simp [hsame]
    by_cases hid : id = 0
    · subst hid
      split
      · next hold =>
        rw [entry_detach, if_neg hold.2]
        split
        · next hnew => simp [entry_attach, hnew.1]
        · simp
      · split
        · next hnew => simp [entry_attach, hnew.1]
        · simp
    · by_cases hnew : new = id
      · subst hnew
        have hold : ¬ old = new := fun h => hsame h.symm
        split
        · rw [entry_detach, if_neg hold]
          simp [hsame, hid, entry_attach]
        · simp [hsame, hid, entry_attach]
      · have hkeep : (if new ≠ 0 ∧ new ≠ old then m.attach env new e.kv.key else m).entry id =
            m.entry id := by
          split
          · rw [entry_attach, if_neg hnew]
          · rfl
        by_cases hold : old = id
        · subst hold
          rw [if_pos ⟨hsame, hid⟩, entry_detach, if_pos rfl, hkeep]
          simp [hsame, hid]
        · have hnone : ¬ (new = old ∨ id = 0) := fun h => h.elim hsame hid
          rw [if_neg hnone, if_neg hnew, if_neg hold, Option.elim_none]
          split
          · rw [entry_detach, if_neg hold, hkeep]
          · exact hkeep

/-- The moves of a list of events, one after another. -/
theorem entry_foldl (events : List Event) : (events.foldl (onLogEvent env) m).entry id =
    (events.filterMap (LeaseMove.of env.unmarshal id)).foldl (fun x move => move.apply x)
      (m.entry id) := by
  induction events generalizing m with
  | nil => rfl
  | cons e events ih =>
    rw [List.foldl_cons, ih, entry_onLogEvent, List.filterMap_cons]
    cases LeaseMove.of env.unmarshal id e <;> rfl

end LeaseManager

/-! ## Two folds of the same moves -/

namespace LeaseMove

variable {x y : Option LeaseEntry} {moves : List LeaseMove}

/-- The moves, one after another. -/
def replay (moves : List LeaseMove) (x : Option LeaseEntry) : Option LeaseEntry :=
  moves.foldl (fun x move => move.apply x) x

/-- The keys on the list of a lease, none if it is not in the table. -/
def keysOf (x : Option LeaseEntry) : List Bytes := x.elim [] LeaseEntry.keys

theorem keysOf_apply (move : LeaseMove) (x : Option LeaseEntry) : keysOf (move.apply x) =
    match move with
    | .grant _ => keysOf x
    | .revoke => []
    | .attach key => keysOf x ++ [key]
    | .detach key => (keysOf x).erase key := by
  cases move with
  | grant _ | revoke | attach _ => rfl
  | detach key =>
    cases x with
    | none => rfl
    | some e =>
      simp only [apply, Option.bind_some]
      split
      · next hlast => exact hlast.symm
      · rfl

theorem isSome_apply (move : LeaseMove) (x : Option LeaseEntry) : (move.apply x).isSome = true ↔
    match move with
    | .grant _ | .attach _ => True
    | .revoke => False
    | .detach key => (keysOf x).erase key ≠ [] := by
  cases move with
  | grant _ | revoke | attach _ => simp [apply]
  | detach key =>
    cases x with
    | none => simp [apply, keysOf]
    | some e =>
      simp only [apply, Option.bind_some, keysOf, Option.elim_some]
      split <;> simp_all

/-- What a detachment leaves has its TTL. -/
theorem mem_detach {key : Bytes} {e : LeaseEntry} (he : e ∈ (detach key).apply x) :
    ∃ e' ∈ x, e.ttl = e'.ttl := by
  obtain ⟨e', he', hleft⟩ := Option.bind_eq_some_iff.mp he
  split at hleft
  · cases hleft
  · cases hleft
    exact ⟨e', he', rfl⟩

/-- The lease is in the second table if it is in the first, with at least the same keys; in the first it may
be a placeholder. -/
structure Below (x y : Option LeaseEntry) : Prop where
  held : x.isSome = true → y.isSome = true
  keys : ∀ k, (keysOf x).count k ≤ (keysOf y).count k
  ttl : ∀ e ∈ x, ∀ f ∈ y, e.ttl = f.ttl ∨ e.ttl = 0

theorem below_none (x : Option LeaseEntry) : Below none x := ⟨nofun, fun _ => Nat.zero_le _, nofun⟩

theorem Below.refl (x : Option LeaseEntry) : Below x x where
  held hx := hx
  keys _ := le_rfl
  ttl _ he _ hf := Or.inl (congrArg LeaseEntry.ttl (Option.mem_unique he hf))

theorem Below.trans {z : Option LeaseEntry} (h : Below x y) (h' : Below y z) : Below x z where
  held hx := h'.held (h.held hx)
  keys k := (h.keys k).trans (h'.keys k)
  ttl e he g hg := by
    obtain ⟨f, hf⟩ := Option.isSome_iff_exists.mp (h.held (Option.isSome_of_mem he))
    have h1 := h.ttl e he f hf
    have h2 := h'.ttl f hf g hg
    omega

theorem Below.eq_none (h : Below x none) : x = none := by
  cases x with
  | none => rfl
  | some e => exact absurd (h.held rfl) nofun

theorem Below.apply (h : Below x y) (move : LeaseMove) : Below (move.apply x) (move.apply y) where
  held hx := by
    rw [isSome_apply] at hx ⊢
    cases move with
    | grant _ | revoke | attach _ => exact hx
    | detach key =>
      obtain ⟨k, hk⟩ := List.exists_mem_of_ne_nil _ hx
      refine List.ne_nil_of_mem (a := k) (List.count_pos_iff.mp ?_)
      have hpos := List.count_pos_iff.mpr hk
      have hle := h.keys k
      rw [List.count_erase] at hpos ⊢
      omega
  keys k := by
    have hle := h.keys k
    rw [keysOf_apply, keysOf_apply]
    cases move with
    | grant _ => exact hle
    | revoke => exact le_rfl
    | attach key =>
      rw [List.count_append, List.count_append]
      omega
    | detach key =>
      rw [List.count_erase, List.count_erase]
      omega
  ttl e he f hf := by
    cases move with
    | grant ttl =>
      cases he
      cases hf
      exact Or.inl rfl
    | revoke => cases he
    | attach key =>
      cases he
      cases hf
      cases x with
      | none => exact Or.inr rfl
      | some e =>
        obtain ⟨f, rfl⟩ := Option.isSome_iff_exists.mp (h.held rfl)
        exact h.ttl e rfl f rfl
    | detach key =>
      obtain ⟨e', he', hkeep⟩ := mem_detach he
      obtain ⟨f', hf', hkeep'⟩ := mem_detach hf
      rw [hkeep, hkeep']
      exact h.ttl e' he' f' hf'

/-- More stays more. -/
theorem Below.replay (h : Below x y) (moves : List LeaseMove) :
    Below (replay moves x) (replay moves y) := by
  induction moves generalizing x y with
  | nil => exact h
  | cons move moves ih => exact ih (h.apply move)

/-- A replay ends with no more than a fresh one and what it started with. -/
theorem count_replay_le {n : Nat} {k : Bytes} (h : (keysOf y).count k ≤ (keysOf x).count k + n) :
    (keysOf (replay moves y)).count k ≤ (keysOf (replay moves x)).count k + n := by
  induction moves generalizing x y with
  | nil => exact h
  | cons move moves ih =>
    refine ih ?_
    rw [keysOf_apply, keysOf_apply]
    cases move with
    | grant _ => exact h
    | revoke => simp
    | attach key =>
      rw [List.count_append, List.count_append]
      omega
    | detach key =>
      rw [List.count_erase, List.count_erase]
      omega

/-- Over a table that has no more than the moves give it, a replay ends with the lease in the table, and
with its keys, as a fresh one does. -/
theorem replay_same (h : Below x (replay moves none)) :
    ((replay moves x).isSome = true ↔ (replay moves none).isSome = true) ∧
    ∀ k, k ∈ keysOf (replay moves x) ↔ k ∈ keysOf (replay moves none) := by
  have hmore : Below (replay moves none) (replay moves x) := (below_none x).replay moves
  refine ⟨⟨fun hx => ?_, hmore.held⟩, fun k => ⟨fun hk => ?_, fun hk => ?_⟩⟩
  · by_contra hnone
    have hfresh : replay moves none = none := Option.not_isSome_iff_eq_none.mp hnone
    rw [hfresh] at h
    rw [h.eq_none, hfresh] at hx
    cases hx
  · have hle : (keysOf (replay moves x)).count k ≤
        (keysOf (replay moves none)).count k + (keysOf x).count k := count_replay_le (by simp [keysOf])
    have hpos := List.count_pos_iff.mpr hk
    have hkeys := h.keys k
    refine List.count_pos_iff.mp ?_
    omega
  · have hpos := List.count_pos_iff.mpr hk
    have hkeys := hmore.keys k
    exact List.count_pos_iff.mp (by omega)

/-- Somewhere along the moves the lease is not in the table. -/
def removes : List LeaseMove → Option LeaseEntry → Bool
  | [], x => x.isNone
  | move :: moves, x => x.isNone || removes moves (move.apply x)

/-- The TTL of the last grant since the last revocation. -/
def granted (ttl : Int) (moves : List LeaseMove) : Int :=
  moves.foldl (fun t move => match move with
    | .grant ttl => ttl
    | .revoke => 0
    | _ => t) ttl

/-- What a lease is granted does not depend on what it had, unless it is granted nothing. -/
theorem granted_cases (t u : Int) (moves : List LeaseMove) :
    granted t moves = granted u moves ∨ granted t moves = t := by
  induction moves generalizing t u with
  | nil => exact Or.inr rfl
  | cons move moves ih =>
    cases move with
    | grant _ | revoke => exact Or.inl rfl
    | attach _ | detach _ => exact ih t u

/-- A lease has the TTL of its last grant, or is a placeholder. -/
theorem ttl_granted {t : Int} (h : ∀ e ∈ x, e.ttl = t ∨ e.ttl = 0) :
    ∀ e ∈ replay moves x, e.ttl = granted t moves ∨ e.ttl = 0 := by
  induction moves generalizing t x with
  | nil => exact h
  | cons move moves ih =>
    cases move with
    | grant ttl =>
      refine ih (t := ttl) ?_
      rintro e ⟨⟩
      exact Or.inl rfl
    | revoke => exact ih (t := 0) nofun
    | attach key =>
      refine ih (t := t) ?_
      rintro e ⟨⟩
      cases x with
      | none => exact Or.inr rfl
      | some e => exact h e rfl
    | detach key =>
      refine ih (t := t) fun e he => ?_
      obtain ⟨e', he', hkeep⟩ := mem_detach he
      exact hkeep ▸ h e' he'

/-- Once the lease is gone, the replay goes on as a fresh one. -/
theorem replay_of_removes (h : Below y x) (hgone : removes moves x = true) :
    replay moves x = replay moves y := by
  induction moves generalizing x y with
  | nil =>
    obtain rfl : x = none := Option.isNone_iff_eq_none.mp hgone
    rw [h.eq_none]
  | cons move moves ih =>
    rcases Bool.or_eq_true_iff.mp hgone with hnone | hgone
    · obtain rfl : x = none := Option.isNone_iff_eq_none.mp hnone
      rw [h.eq_none]
    · exact ih (h.apply move) hgone

/-- A lease that stays in the table ends with the TTL of the last grant. -/
theorem ttl_replay {e : LeaseEntry} (hstays : removes moves (some e) = false) :
    (replay moves (some e)).map LeaseEntry.ttl = some (granted e.ttl moves) := by
  induction moves generalizing e with
  | nil => rfl
  | cons move moves ih =>
    have hstays : removes moves (move.apply (some e)) = false := hstays
    cases hnext : move.apply (some e) with
    | none =>
      rw [hnext] at hstays
      cases moves <;> cases hstays
    | some e' =>
      rw [hnext] at hstays
      have hih := ih hstays
      show (replay moves (move.apply (some e))).map LeaseEntry.ttl = some (granted _ moves)
      rw [hnext, hih]
      cases move with
      | grant | attach =>
        cases hnext
        rfl
      | revoke => cases hnext
      | detach key =>
        simp only [apply, Option.bind_some] at hnext
        split at hnext <;> cases hnext
        rfl

/-- The replay leaves the lease as it is if the table has what a fresh replay gives the lease, and the TTL of
the last grant. -/
theorem replay_keeps (h : Below x (replay moves none))
    (hheld : (replay moves none).isSome = true → x.isSome = true)
    (hkeys : ∀ k ∈ keysOf (replay moves none), k ∈ keysOf x)
    (httl : ∀ e ∈ x, e.ttl = granted 0 moves) :
    (x.isSome = true ↔ (replay moves x).isSome = true) ∧
      (∀ k, k ∈ keysOf x ↔ k ∈ keysOf (replay moves x)) ∧
      x.map LeaseEntry.ttl = (replay moves x).map LeaseEntry.ttl := by
  obtain ⟨hsome, hsame⟩ := replay_same h
  have hiff : x.isSome = true ↔ (replay moves x).isSome = true :=
    ⟨fun hx => hsome.mpr (h.held hx), fun hx => hheld (hsome.mp hx)⟩
  refine ⟨hiff, fun k => ?_, ?_⟩
  · rw [hsame k]
    refine ⟨fun hk => ?_, hkeys k⟩
    exact List.count_pos_iff.mp ((List.count_pos_iff.mpr hk).trans_le (h.keys k))
  · cases hx : x with
    | none =>
      have hnone : ¬ (replay moves x).isSome = true := fun hafter =>
        absurd (hiff.mpr hafter) (by simp [hx])
      rw [← hx, Option.not_isSome_iff_eq_none.mp hnone, hx]
    | some e =>
      have he := httl e hx
      cases hgone : removes moves (some e) with
      | false =>
        -- The replay ends with what the last grant gives, or changes nothing.
        rw [ttl_replay hgone, Option.map_some]
        rcases granted_cases e.ttl 0 moves with hcase | hcase <;> simp_all
      | true =>
        -- A lease that the replay removes ends as in a fresh one.
        rw [replay_of_removes (below_none _) hgone]
        obtain ⟨f, hf⟩ := Option.isSome_iff_exists.mp (h.held (hx ▸ rfl))
        have h1 := h.ttl e hx f hf
        have h2 := ttl_granted (t := 0) (x := none) nofun f hf
        rw [hf, Option.map_some, Option.map_some]
        congr 1
        omega

end LeaseMove

/-! ## The live store and the replay -/

/-- The index of some records. -/
def indexOf (records : LogHistory) (index : BPTree) : BPTree :=
  records.foldl (fun t r => r.2.events.foldl
    (fun t e => t.addRevision e.kv.key r.1 (e.type == .delete)) t) index

theorem MemoryStorage.revisions_applyRecord (env : LeaseEnv) (r : Nat) (m : MemoryStorage) (x : LogRecord) :
    (m.applyRecord env r x).revisions = indexOf [(r, x)] m.revisions := by
  show (x.events.foldl (applyEvent env r) m).revisions =
    x.events.foldl (fun t e => t.addRevision e.kv.key r (e.type == .delete)) m.revisions
  induction x.events generalizing m with
  | nil => rfl
  | cons e events ih => exact ih _

theorem MemoryStorage.revisions_foldl (env : LeaseEnv) (records : LogHistory) (m : MemoryStorage) :
    (records.foldl (fun m r => m.applyRecord env r.1 r.2) m).revisions =
      indexOf records m.revisions := by
  induction records generalizing m with
  | nil => rfl
  | cons p records ih =>
    rw [List.foldl_cons, ih, revisions_applyRecord]
    rfl

namespace Store

open LeaseMove (replay keysOf granted)

variable {s s' : Store} {unmarshal : Bytes → Option Int}

/-- `ForceReplayLog`, when the log has records. -/
def forceReplayLog (s : Store) (env : LeaseEnv) : MemoryStorage :=
  { s.mem with revisions := BPTree.empty, applied := 0 }.replayLog env s.log.readAll s.log.lastRevision

/-- What happens to a store whose log is not compacted; the leases are renewed and retired as well. -/
inductive LiveAction where
  | commit (position : Nat) (batch : List LogRecord)
  | applyUpTo (now : Int) (fails : Nat → Bool) (rev : Nat)
  | rotate
  | touch (revision : Nat)
  | keepAlive (now id : Int)
  | markExpiring (ids : List Int)
  | unmarkExpiring (id : Int)
  | retire (id : Int)
  | queue (queue : List Lease)

/-- The lease manager changes. -/
def withLeases (s : Store) (m : LeaseManager) : Store := { s with mem := { s.mem with leaseManager := m } }

/-- One step; `json.Unmarshal` reads lease records the same way every time. -/
def live (unmarshal : Bytes → Option Int) (s : Store) : LiveAction → Option Store
  | .commit position batch => (s.commit position batch).toOption
  | .applyUpTo now fails rev => some (s.applyUpTo ⟨now, unmarshal⟩ fails rev).1
  | .rotate => some s.rotate
  | .touch revision => some (s.touch revision)
  | .keepAlive now id => (s.mem.leaseManager.leaseKeepAlive now id).map fun r => s.withLeases r.1
  | .markExpiring ids => some (s.withLeases (s.mem.leaseManager.markExpiring ids))
  | .unmarkExpiring id => some (s.withLeases (s.mem.leaseManager.unmarkExpiring id))
  | .retire id => some (s.withLeases (s.mem.leaseManager.retire id))
  | .queue queue => some (s.withLeases { s.mem.leaseManager with deleteQueue := queue })

/-- What the records mean for a lease. -/
def movesOf (unmarshal : Bytes → Option Int) (id : Int) (records : LogHistory) : List LeaseMove :=
  (eventsOf records).filterMap (LeaseMove.of unmarshal id)

/-- Neither index nor lease table is changed, deadlines aside. -/
def ReplayChangesNothing (s : Store) (env : LeaseEnv) : Prop :=
  (s.forceReplayLog env).revisions = s.mem.revisions ∧ ∀ id,
    let before := s.mem.leaseManager.entry id
    let after := (s.forceReplayLog env).leaseManager.entry id
    (before.isSome = true ↔ after.isSome = true) ∧ (∀ k, k ∈ keysOf before ↔ k ∈ keysOf after) ∧
      before.map LeaseEntry.ttl = after.map LeaseEntry.ttl

/-- Every committed event is applied. -/
def AllApplied (s : Store) : Prop := ∀ p ∈ s.log.records, s.mem.applied < p.1 → p.2.events = []

/-- Every lease that the log gives is in the table, with all its keys. -/
def HoldsLeases (s : Store) (unmarshal : Bytes → Option Int) : Prop := ∀ id,
  let given := replay (movesOf unmarshal id s.log.records) none
  let held := s.mem.leaseManager.entry id
  (given.isSome = true → held.isSome = true) ∧ ∀ k ∈ keysOf given, k ∈ keysOf held

/-- Every lease in the table has the TTL of its last grant in the log since its last revocation. -/
def HoldsTTLs (s : Store) (unmarshal : Bytes → Option Int) : Prop :=
  ∀ id, ∀ e ∈ s.mem.leaseManager.entry id, e.ttl = granted 0 (movesOf unmarshal id s.log.records)

/-- The index is that of the applied records, and the table has no more than they give it. -/
structure Follows (unmarshal : Bytes → Option Int) (s : Store) : Prop where
  held : s.Held
  point : s.mem.compacted = 0
  applied : ∃ done pending, s.log.records = done ++ pending ∧ (∀ p ∈ done, p.1 ≤ s.mem.applied) ∧
    (∀ p ∈ pending, s.mem.applied < p.1) ∧ s.mem.revisions = indexOf done BPTree.empty ∧
    ∀ id, LeaseMove.Below (s.mem.leaseManager.entry id) (replay (movesOf unmarshal id done) none)

theorem movesOf_append (id : Int) (a b : LogHistory) :
    movesOf unmarshal id (a ++ b) = movesOf unmarshal id a ++ movesOf unmarshal id b := by
  simp [movesOf, eventsOf]

section

variable (h : s.Follows unmarshal)
include h

theorem Follows.withLeases {m : LeaseManager}
    (hm : ∀ id, LeaseMove.Below (m.entry id) (s.mem.leaseManager.entry id)) :
    (s.withLeases m).Follows unmarshal := by
  obtain ⟨done, pending, hrecords, hdone, hpending, hindex, hleases⟩ := h.applied
  exact ⟨{ h.held with }, h.point, done, pending, hrecords, hdone, hpending, hindex,
    fun id => (hm id).trans (hleases id)⟩

theorem Follows.withLog {log : FilesystemLog} (hheld : Held { s with log := log })
    (hrecords : log.records = s.log.records) : Follows unmarshal { s with log := log } := by
  obtain ⟨done, pending, hsplit, hrest⟩ := h.applied
  exact ⟨hheld, h.point, done, pending, hrecords.trans hsplit, hrest⟩

theorem Follows.commit {position : Nat} {batch : List LogRecord}
    (hcommit : s.commit position batch = .ok s') : s'.Follows unmarshal := by
  have hheld := h.held.commit hcommit
  obtain ⟨done, pending, hsplit, hdone, hpending, hrest⟩ := h.applied
  obtain ⟨log, hlog, rfl⟩ := commit_eq_ok hcommit
  obtain ⟨-, -, hrecords, -⟩ := commitBatch_spec h.held.files hlog
  refine ⟨hheld, h.point, done, pending ++ numberFrom (s.log.lastRevision + 1) batch, ?_, hdone,
    fun p hp => ?_, hrest⟩
  · show log.records = _
    rw [hrecords, hsplit, List.append_assoc]
  · rcases List.mem_append.mp hp with hp | hp
    · exact hpending p hp
    · have hnew := (mem_numberFrom hp).1
      have hle := h.held.applied_le
      show s.mem.applied < p.1
      omega

/-- The next record to be applied is the first of those that are not. -/
theorem Follows.applyRecord (now : Int) {x : LogRecord} (hx : (s.mem.applied + 1, x) ∈ s.history) :
    Follows unmarshal { s with mem := { s.mem.applyRecord ⟨now, unmarshal⟩ (s.mem.applied + 1) x with
      applied := s.mem.applied + 1 } } := by
  obtain ⟨done, pending, hsplit, hdone, hpending, hindex, hleases⟩ := h.applied
  have hmem : (s.mem.applied + 1, x) ∈ pending := by
    have hin := h.held.tail _ hx (by rw [h.point]; exact Nat.succ_pos _)
    rw [hsplit] at hin
    refine (List.mem_append.mp hin).resolve_left fun hin => ?_
    exact absurd (hdone _ hin) (Nat.not_succ_le_self _)
  obtain ⟨p, rest, rfl⟩ := List.exists_cons_of_ne_nil (List.ne_nil_of_mem hmem)
  have hasc : Ascending (p :: rest) :=
    (hsplit ▸ h.held.files.ascending : Ascending (done ++ p :: rest)).sublist
      (List.sublist_append_right _ _)
  have hrest := (List.pairwise_cons.mp hasc).1
  obtain rfl : (s.mem.applied + 1, x) = p := by
    rcases List.mem_cons.mp hmem with heq | hin
    · exact heq
    · have h1 := hrest _ hin
      have h2 := hpending p List.mem_cons_self
      change p.1 < s.mem.applied + 1 at h1
      omega
  refine ⟨h.held.applyRecord ⟨now, unmarshal⟩ hx, ?_, done ++ [(s.mem.applied + 1, x)], rest, ?_, ?_, ?_,
    ?_, fun id => ?_⟩
  · exact (applyRecord_frame _ _ _ x).1.trans h.point
  · rw [List.append_assoc]
    exact hsplit
  · intro p hp
    rcases List.mem_append.mp hp with hp | hp
    · exact (hdone p hp).trans (Nat.le_succ _)
    · rw [List.mem_singleton.mp hp]
  · exact fun p hp => hrest p hp
  · show (s.mem.applyRecord ⟨now, unmarshal⟩ _ x).revisions = _
    rw [revisions_applyRecord, hindex, indexOf, indexOf, indexOf, List.foldl_append]
  · show LeaseMove.Below ((s.mem.applyRecord ⟨now, unmarshal⟩ _ x).leaseManager.entry id) _
    rw [applyRecord_leases, entry_foldl, movesOf_append, replay,
      List.foldl_append]
    have hmoves : movesOf unmarshal id [(s.mem.applied + 1, x)] =
        x.events.filterMap (LeaseMove.of unmarshal id) := by simp [movesOf, eventsOf]
    rw [hmoves]
    exact (hleases id).replay _

theorem Follows.step {a : LiveAction} (hstep : s.live unmarshal a = some s') :
    s'.Follows unmarshal := by
  have hsame : ∀ {m : LeaseManager}, m.leases = s.mem.leaseManager.leases →
      (s.withLeases m).Follows unmarshal := fun hm =>
    h.withLeases fun id => by
      rw [LeaseManager.entry, hm]
      exact LeaseMove.Below.refl _
  cases a with
  | commit position batch => exact h.commit (toOption_eq_some.mp hstep)
  | applyUpTo now fails rev =>
    obtain rfl := Option.some.inj hstep
    exact applyNext_induction _ (fun _ _ hs hx => hs.applyRecord now hx) h
      (fun _ _ hread => h.held.reader_mem hread) _
  | rotate =>
    obtain rfl := Option.some.inj hstep
    exact h.withLog h.held.rotate (rotate_frame s.log).1
  | touch revision =>
    obtain rfl := Option.some.inj hstep
    refine h.withLog (h.held.touch revision) ?_
    obtain ⟨cache, heq⟩ := getLogEntry_frame s.log revision
    rw [heq]
    rfl
  | keepAlive now id =>
    obtain ⟨⟨m, ttl⟩, hm, rfl⟩ := Option.map_eq_some_iff.mp hstep
    refine h.withLeases fun x => ?_
    rw [entry_leaseKeepAlive hm]
    exact LeaseMove.Below.refl _
  | retire id =>
    obtain rfl := Option.some.inj hstep
    refine h.withLeases fun x => ?_
    rw [entry_retire]
    split
    · exact LeaseMove.below_none _
    · exact LeaseMove.Below.refl _
  | markExpiring _ | unmarkExpiring _ | queue _ =>
    obtain rfl := Option.some.inj hstep
    exact hsame rfl

end

theorem Follows.start {env : LeaseEnv} {log : FilesystemLog} (hwf : log.WF) (hcache : log.cache.ll = [])
    (hstart : Store.start env log = .ok s) : s.Follows env.unmarshal := by
  have hheld := Held.start hwf hcache hstart
  unfold Store.start at hstart
  split at hstart
  · next hzero =>
    have hempty := hwf.records_eq_nil hzero
    obtain ⟨s', hcommit, hrest⟩ := bind_eq_ok.mp hstart
    cases hrest
    obtain ⟨log', hlog, rfl⟩ := commit_eq_ok hcommit
    obtain ⟨-, -, hrecords, -⟩ := commitBatch_spec hwf hlog
    rw [hempty, hzero, List.nil_append] at hrecords
    refine ⟨hheld, rfl, [(1, ⟨[]⟩)], [], hrecords, by simp, nofun, rfl, fun id => ?_⟩
    exact LeaseMove.below_none _
  · cases hstart
    obtain ⟨hpoint, happlied⟩ := replayLog_frame env new log.readAll log.lastRevision
    refine ⟨hheld, hpoint, log.records, [], (List.append_nil _).symm, fun p hp => ?_, nofun, ?_,
      fun id => ?_⟩
    · exact (hwf.record_bounds hp).2
    · rw [readAll_eq]
      exact revisions_foldl env log.records new
    · rw [replayLog_leases, readAll_eq, entry_foldl]
      exact LeaseMove.Below.refl _

/-- The index changes exactly if committed events have not been applied. -/
theorem Follows.index_iff (h : s.Follows unmarshal) (env : LeaseEnv) :
    (s.forceReplayLog env).revisions = s.mem.revisions ↔ s.AllApplied := by
  obtain ⟨done, pending, hsplit, hdone, hpending, hindex, -⟩ := h.applied
  have hreplay : (s.forceReplayLog env).revisions = indexOf s.log.records BPTree.empty := by
    rw [forceReplayLog, readAll_eq]
    exact revisions_foldl env s.log.records _
  constructor
  · intro heq p hp hgt
    refine List.eq_nil_iff_forall_not_mem.mpr fun e he => ?_
    have hbounds := h.held.files.record_bounds hp
    have hnew := (index_replayLog env h.held.files e.kv.key).above p.1 hbounds.1 hbounds.2
      ⟨p.2, hp, e, he, rfl⟩
    have hsame : (MemoryStorage.new.replayLog env s.log.readAll s.log.lastRevision).revisions =
        s.mem.revisions := by
      rw [← heq, hreplay, readAll_eq]
      exact revisions_foldl env s.log.records _
    rw [hsame] at hnew
    exact absurd (h.held.touched hnew).1 (not_le.mpr hgt)
  · intro hnone
    have hskip : ∀ t, indexOf pending t = t := by
      have hevents : ∀ p ∈ pending, p.2.events = [] := fun p hp =>
        hnone p (hsplit ▸ List.mem_append_right _ hp) (hpending p hp)
      clear hsplit hpending
      induction pending with
      | nil => exact fun _ => rfl
      | cons p pending ih =>
        intro t
        have hp := hevents p List.mem_cons_self
        show indexOf pending (p.2.events.foldl _ t) = t
        rw [hp]
        exact ih (fun q hq => hevents q (List.mem_cons_of_mem _ hq)) t
    rw [hreplay, hsplit, hindex, indexOf, List.foldl_append]
    exact hskip _

/-- With every event applied, the table has no more than the log gives. -/
theorem Follows.below (h : s.Follows unmarshal) (hall : s.AllApplied) (id : Int) :
    LeaseMove.Below (s.mem.leaseManager.entry id)
      (replay (movesOf unmarshal id s.log.records) none) := by
  obtain ⟨done, pending, hsplit, -, hpending, -, hleases⟩ := h.applied
  have hmoves : movesOf unmarshal id pending = [] := by
    have hevents : eventsOf pending = [] := List.flatMap_eq_nil_iff.mpr fun p hp =>
      hall p (hsplit ▸ List.mem_append_right _ hp) (hpending p hp)
    rw [movesOf, hevents]
    rfl
  rw [hsplit, movesOf_append, hmoves, List.append_nil]
  exact hleases id

/-- In every state of a store whose log is not compacted: `ForceReplayLog` changes nothing if every committed
event is applied and the table has the leases that the log gives, with their keys and the TTLs of their last
grants.  The first two are necessary as well. -/
theorem replay_changes_nothing {env₀ env : LeaseEnv} {log : FilesystemLog} {s₀ : Store}
    {actions : List LiveAction} (hwf : log.WF) (hcache : log.cache.ll = [])
    (hstart : Store.start env₀ log = .ok s₀)
    (hrun : Transition.run (live env₀.unmarshal) s₀ actions = some s)
    (hsame : env.unmarshal = env₀.unmarshal) :
    (s.AllApplied → s.HoldsLeases env.unmarshal → s.HoldsTTLs env.unmarshal →
      s.ReplayChangesNothing env) ∧
    (s.ReplayChangesNothing env → s.AllApplied ∧ s.HoldsLeases env.unmarshal) := by
  have h : s.Follows env.unmarshal := hsame ▸ Transition.run_invariant
    (fun _ _ _ hs hstep => hs.step hstep) hrun (Follows.start hwf hcache hstart)
  have hentry : ∀ id, (s.forceReplayLog env).leaseManager.entry id =
      replay (movesOf env.unmarshal id s.log.records) (s.mem.leaseManager.entry id) := by
    intro id
    rw [forceReplayLog, replayLog_leases, readAll_eq, entry_foldl]
    rfl
  constructor
  · intro hall hleases httl
    refine ⟨(h.index_iff env).mpr hall, fun id => ?_⟩
    dsimp only
    rw [hentry id]
    exact LeaseMove.replay_keeps (h.below hall id) (hleases id).1 (hleases id).2 (httl id)
  · rintro ⟨hindex, hsame⟩
    have hall := (h.index_iff env).mp hindex
    refine ⟨hall, fun id => ?_⟩
    obtain ⟨hheld, hkeys⟩ := LeaseMove.replay_same (h.below hall id)
    have hid := hsame id
    dsimp only at hid
    rw [hentry id] at hid
    obtain ⟨hiff, hin, -⟩ := hid
    exact ⟨fun hgiven => hiff.mpr (hheld.mpr hgiven), fun k hk => (hin k).mpr ((hkeys k).mpr hk)⟩

/-- A lease is granted and gets a key. -/
def grantAndAttach : List LiveAction :=
  [.commit 1 [⟨[grantEvent 7]⟩, ⟨[{ type := .put, kv := { key := [1], lease := 7 } }]⟩],
    .applyUpTo 0 (fun _ => false) 3]

/-- The lease and its key come from the log, and a replay leaves them. -/
theorem replay_changes_nothing_grantAndAttach : ∃ s₀ s, Store.boot minuteLeases ⟨0, 0⟩ [] = some s₀ ∧
    Transition.run (live minuteLeases.unmarshal) s₀ grantAndAttach = some s ∧
    s.mem.leaseManager.entry 7 = some ⟨[[1]], 60⟩ ∧ s.ReplayChangesNothing minuteLeases := by
  obtain ⟨s₀, s, hboot, hs, hrecords, hentry, hkeys, happlied⟩ : ∃ s₀ s,
      Store.boot minuteLeases ⟨0, 0⟩ [] = some s₀ ∧
      Transition.run (live minuteLeases.unmarshal) s₀ grantAndAttach = some s ∧
      s.log.records = [(1, ⟨[]⟩), (2, ⟨[grantEvent 7]⟩),
        (3, ⟨[{ type := .put, kv := { key := [1], lease := 7 } }]⟩)] ∧
      s.mem.leaseManager.entry 7 = some ⟨[[1]], 60⟩ ∧ s.mem.leaseManager.leases.keys = [7] ∧
      s.mem.applied = 3 := by decide +kernel
  obtain ⟨log, hopen, hstart⟩ := Store.boot_eq_some hboot
  have hopened := (opened_of_empty hopen).1
  -- The records say nothing of other leases.
  have hmoves : ∀ id ≠ 7, movesOf minuteLeases.unmarshal id [(1, ⟨[]⟩), (2, ⟨[grantEvent 7]⟩),
      (3, ⟨[{ type := .put, kv := { key := [1], lease := 7 } }]⟩)] = [] := by
    intro id hid
    have hparse : parseLeaseKey (leaseKey 7) = some 7 := parseLeaseKey_leaseKey (by decide)
    have hother : parseLeaseKey [1] = none := by decide
    simp [movesOf, eventsOf, LeaseMove.of, grantEvent, hparse, hother, Ne.symm hid, oldLease]
    exact fun hne => if_neg (Ne.symm hne)
  refine ⟨s₀, s, hboot, hs, hentry,
    (replay_changes_nothing hopened.files hopened.cache hstart hs rfl).1 ?_ ?_ ?_⟩
  · rw [AllApplied, hrecords, happlied]
    simp
  · intro id
    by_cases hid : id = 7
    · subst hid
      rw [hentry, hrecords]
      decide +kernel
    · rw [hrecords, hmoves id hid]
      exact ⟨nofun, nofun⟩
  · intro id e he
    by_cases hid : id = 7
    · subst hid
      rw [hentry] at he
      cases he
      rw [hrecords]
      decide +kernel
    · have hnone : s.mem.leaseManager.entry id = none := by
        rw [entry, AList.lookup_eq_none.mpr, Option.map_none]
        rw [AList.mem_keys, hkeys, List.mem_singleton]
        exact hid
      rw [hnone] at he
      cases he

/-- The only key of a lease is detached and another one attached by one transaction. -/
def detachAndReattach : List System.Action :=
  System.callIn minuteLeases 0 { success := [.put { key := leaseKey 7 }] } ++
    System.callIn minuteLeases 1 { success := [.put { key := [1], lease := 7 }] } ++
    System.callIn minuteLeases 2 { success := [.put { key := [1] }, .put { key := [2], lease := 7 }] }

/-- The lease is a placeholder with TTL 0 then, and the replay gives it its TTL back. -/
theorem replay_changes_ttl : ∃ sys, System.runFresh minuteLeases ⟨0, 0⟩ detachAndReattach = some sys ∧
    sys.store.mem.leaseManager.entry 7 = some ⟨[[2]], 0⟩ ∧
    (sys.store.forceReplayLog minuteLeases).leaseManager.entry 7 = some ⟨[[2], [2]], 60⟩ ∧
    ¬ sys.store.ReplayChangesNothing minuteLeases := by
  obtain ⟨sys, hsys, hbefore, hafter⟩ : ∃ sys,
      System.runFresh minuteLeases ⟨0, 0⟩ detachAndReattach = some sys ∧
      sys.store.mem.leaseManager.entry 7 = some ⟨[[2]], 0⟩ ∧
      (sys.store.forceReplayLog minuteLeases).leaseManager.entry 7 = some ⟨[[2], [2]], 60⟩ :=
    by decide +kernel
  refine ⟨sys, hsys, hbefore, hafter, fun hsame => ?_⟩
  have httl := (hsame.2 7).2.2
  rw [hbefore, hafter] at httl
  cases httl

end Store

end CloudEtcd
