/-
# CloudEtcd.System.RepeatedWrites — transactions that write a key more than once.

Every operation of a transaction is evaluated against the snapshot, not against what the operations before it
staged, and all events go into one record.  `Get` then takes the first event of the record on its key, and
`List` takes every put of the record.  So the last write of a key is what is read afterwards only if the
first write of the key that stages an event says the same, and, for a listing, if the branch puts nothing
else (`repeated_writes_iff`).

A delete of a key without an entry stages nothing and is not validated either, so that another transaction
may put the key between the snapshot and the revision.
-/
import CloudEtcd.Storage.Restart
import CloudEtcd.System.Deletes
import CloudEtcd.System.Reads
import CloudEtcd.System.Serializability

namespace CloudEtcd

open History MemoryStorage

/-- The request of a `List` at a revision. -/
def listRequest (start rangeEnd : Bytes) (r : Nat) : RangeRequest :=
  { key := some start, rangeEnd := some rangeEnd, revision := r }

/-- A `List` of a range at a revision. -/
def Store.listAt (s : Store) (start rangeEnd : Bytes) (r : Nat) : Except TxnError RangeResponse :=
  s.mem.list s.log.read s.log.lastRevision (listRequest start rangeEnd r)

/-! ## What the operations write -/

/-- What an operation does to a key, if anything: a value, or `none` for a delete. -/
def RequestOp.writeOf (k : Bytes) : RequestOp → Option (Option Bytes)
  | .put req => if req.key = k then some (some req.value) else none
  | .deleteRange req => if req.key = k then some none else none
  | _ => none

/-- What the operations do to a key, in order. -/
def writesOf (k : Bytes) (ops : List RequestOp) : List (Option Bytes) :=
  ops.filterMap (RequestOp.writeOf k)

/-- Those that stage an event: a delete does so only if the key has an entry in the index. -/
def stagedWrites (indexed : Bool) (k : Bytes) (ops : List RequestOp) : List (Option Bytes) :=
  (writesOf k ops).filter fun write => write.isSome || indexed

/-- The put of an operation. -/
def RequestOp.put? : RequestOp → Option PutRequest
  | .put req => some req
  | _ => none

/-- The puts of the operations, on whatever keys. -/
def putsOf (ops : List RequestOp) : List PutRequest := ops.filterMap RequestOp.put?

theorem stagedWrites_cons (indexed : Bool) (k : Bytes) (op : RequestOp) (ops : List RequestOp) :
    stagedWrites indexed k (op :: ops) = stagedWrites indexed k [op] ++ stagedWrites indexed k ops := by
  simp only [stagedWrites, writesOf, ← List.filter_append, ← List.filterMap_append,
    List.singleton_append]

theorem putsOf_cons (op : RequestOp) (ops : List RequestOp) :
    putsOf (op :: ops) = putsOf [op] ++ putsOf ops := by
  simp only [putsOf, ← List.filterMap_append, List.singleton_append]

/-- What an event does to its key. -/
def Event.write (e : Event) : Option Bytes :=
  match e.type with
  | .put => some e.kv.value
  | .delete => none

variable {ops : List RequestOp}

namespace MemoryStorage

variable {m : MemoryStorage} {log : LogReader}
variable {t : Txn}

/-- The events that one operation stages, as writes of a key and as puts. -/
theorem writes_evaluateOp {t' : Txn} {op : RequestOp} {resp : ResponseOp} (k : Bytes)
    (h : m.evaluateOp log t op = .ok (t', resp)) :
    t'.snapshotTimestamp = t.snapshotTimestamp ∧
    ∃ new, t'.logEvents = t.logEvents ++ new ∧
      (new.filter fun e => e.kv.key = k).map Event.write =
        stagedWrites (m.revisions.getLatestRevisionByKey k t.snapshotTimestamp).isSome k [op] ∧
      (new.filter fun e => e.type = .put).length = (putsOf [op]).length := by
  cases evaluateOp_effect h with
  | put req =>
    refine ⟨rfl, [_], rfl, ?_, rfl⟩
    by_cases hk : req.key = k
    · simp [putEvent, hk, stagedWrites, writesOf, RequestOp.writeOf, Event.write]
    · simp [putEvent, hk, stagedWrites, writesOf, RequestOp.writeOf]
  | delete req old hindexed =>
    refine ⟨rfl, [_], rfl, ?_, rfl⟩
    by_cases hk : req.key = k
    · subst hk
      simp [deleteEvent, stagedWrites, writesOf, RequestOp.writeOf, Event.write, hindexed]
    · simp [deleteEvent, hk, stagedWrites, writesOf, RequestOp.writeOf]
  | absent req hnone =>
    refine ⟨rfl, [], by simp, ?_, rfl⟩
    by_cases hk : req.key = k
    · subst hk
      simp [stagedWrites, writesOf, RequestOp.writeOf, hnone]
    · simp [stagedWrites, writesOf, RequestOp.writeOf, hk]
  | get => exact ⟨rfl, [], by simp [Txn.addRead], rfl, rfl⟩
  | list => exact ⟨rfl, [], by simp [Txn.addList], rfl, rfl⟩

/-- The events that the operations stage, in order. -/
theorem writes_evaluateOps {t' : Txn} {responses responses' : List ResponseOp} (k : Bytes)
    (h : m.evaluateOps log t responses ops = .ok (t', responses')) :
    ∃ new, t'.logEvents = t.logEvents ++ new ∧
      (new.filter fun e => e.kv.key = k).map Event.write =
        stagedWrites (m.revisions.getLatestRevisionByKey k t.snapshotTimestamp).isSome k ops ∧
      (new.filter fun e => e.type = .put).length = (putsOf ops).length := by
  induction ops generalizing t responses with
  | nil =>
    cases h
    exact ⟨[], by simp, rfl, rfl⟩
  | cons op ops ih =>
    obtain ⟨⟨t1, resp⟩, hop, hrest⟩ := bind_eq_ok.mp h
    obtain ⟨hsnap, own, hown, hwrites, hputs⟩ := writes_evaluateOp k hop
    obtain ⟨new, hnew, hwrites', hputs'⟩ := ih hrest
    rw [hsnap] at hwrites'
    refine ⟨own ++ new, by rw [hnew, hown, List.append_assoc], ?_, ?_⟩
    · rw [List.filter_append, List.map_append, hwrites, hwrites', ← stagedWrites_cons]
    · rw [List.filter_append, List.length_append, hputs, hputs', putsOf_cons op ops,
        List.length_append]

/-- The events of a transaction: on each key those that its writes stage, and one put for each put. -/
theorem writes_evaluate {req : TxnRequest} {s : Nat} {resp : TxnResponse} (k : Bytes)
    (h : m.evaluate log req s = .ok (resp, t)) :
    (t.logEvents.filter fun e => e.kv.key = k).map Event.write =
        stagedWrites (m.revisions.getLatestRevisionByKey k s).isSome k
          (req.branch resp.succeeded) ∧
      (t.logEvents.filter fun e => e.type = .put).length =
        (putsOf (req.branch resp.succeeded)).length := by
  obtain ⟨txnMeta, -, hops, -⟩ := evaluate_eq_ok h
  obtain ⟨new, hnew, hwrites, hputs⟩ := writes_evaluateOps k hops
  rw [hnew]
  exact ⟨hwrites, hputs⟩

end MemoryStorage

/-! ## Ranges of one key -/

/-- The range holds this key and no other. -/
def SelectsOnly (start rangeEnd k : Bytes) : Prop := ∀ k', InRange start rangeEnd k' ↔ k' = k

theorem eq_of_lt_append_zero {k k' : Bytes} (hle : k ≤ k') (hlt : k' < k ++ [0]) : k' = k := by
  induction k generalizing k' with
  | nil =>
    cases k' with
    | nil => rfl
    | cons b k' =>
      rcases List.cons_lt_cons_iff.mp hlt with hb | ⟨-, hnil⟩
      · exact absurd hb (UInt8.not_lt.mpr UInt8.zero_le)
      · exact absurd hnil (List.not_lt_nil _)
  | cons a k ih =>
    cases k' with
    | nil => exact absurd hle (not_le.mpr List.Lex.nil)
    | cons b k' =>
      rw [List.cons_append] at hlt
      rcases List.cons_lt_cons_iff.mp hlt with hb | ⟨rfl, hrest⟩
      · exact absurd hle (not_le.mpr (List.cons_lt_cons_iff.mpr (Or.inl hb)))
      · have hle : k ≤ k' := not_lt.mp fun h => absurd hle
          (not_le.mpr (List.cons_lt_cons_iff.mpr (Or.inr ⟨rfl, h⟩)))
        rw [ih hle hrest]

/-- Every key but the empty one has a range of its own. -/
theorem exists_selectsOnly_iff (k : Bytes) : (∃ start rangeEnd, SelectsOnly start rangeEnd k) ↔ k ≠ [] := by
  constructor
  · rintro ⟨start, rangeEnd, honly⟩ rfl
    -- A range that holds the empty key holds the key of one zero byte.
    have hin : InRange start rangeEnd [] := (honly []).mpr rfl
    have hzero : InRange start rangeEnd [0] := by
      refine ⟨hin.1.trans (not_lt.mp (List.not_lt_nil _)), ?_⟩
      rcases hin.2 with hend | hlt
      · exact Or.inl hend
      · cases rangeEnd with
        | nil => exact absurd hlt (lt_irrefl _)
        | cons b bs =>
          by_cases hb : b = 0
          · subst hb
            cases bs with
            | nil => exact Or.inl rfl
            | cons c cs => exact Or.inr (List.cons_lt_cons_iff.mpr (Or.inr ⟨rfl, List.Lex.nil⟩))
          · exact Or.inr (List.cons_lt_cons_iff.mpr (Or.inl (UInt8.pos_iff_ne_zero.mpr hb)))
    cases (honly [0]).mp hzero
  · intro hne
    refine ⟨k, k ++ [0], fun k' => ⟨fun hin => ?_, ?_⟩⟩
    · refine eq_of_lt_append_zero hin.1 (hin.2.resolve_left fun heq => hne ?_)
      simpa using heq
    · rintro rfl
      exact ⟨le_rfl, Or.inr (Radix.lt_append (by simp))⟩

/-! ## What is read afterwards -/

/-- The parts of a list that come from one of its elements. -/
theorem flatMap_eq_of_key {β γ : Type*} {entries : List (Bytes × β)}
    (hasc : entries.Pairwise fun a b => a.1 < b.1) {k : Bytes} {f : Bytes × β → List γ}
    (hf : ∀ e ∈ entries, e.1 ≠ k → f e = []) :
    (∀ b, (k, b) ∈ entries → entries.flatMap f = f (k, b)) ∧
      ((∀ b, (k, b) ∉ entries) → entries.flatMap f = []) := by
  constructor
  · intro b hb
    induction entries with
    | nil => simp at hb
    | cons e entries ih =>
      obtain ⟨hlt, hasc⟩ := List.pairwise_cons.mp hasc
      rw [List.flatMap_cons]
      rcases List.mem_cons.mp hb with rfl | hb
      · have hrest : entries.flatMap f = [] := List.flatMap_eq_nil_iff.mpr fun e he =>
          hf e (List.mem_cons_of_mem _ he) (ne_of_gt (hlt e he))
        rw [hrest, List.append_nil]
      · rw [hf e List.mem_cons_self (ne_of_lt (hlt _ hb)), List.nil_append]
        exact ih hasc (fun e he => hf e (List.mem_cons_of_mem _ he)) hb
  · intro hnone
    refine List.flatMap_eq_nil_iff.mpr fun e he => hf e he ?_
    rintro rfl
    exact hnone e.2 he

namespace Store

variable {s : Store} {k : Bytes}

/-- The revision can be read. -/
structure Window (s : Store) (r : Nat) : Prop where
  positive : 0 < r
  point : s.mem.compacted ≤ r
  applied : r ≤ s.mem.applied

section

variable {r : Nat} (h : s.Held) (hr : s.Window r)
include h hr

/-- Such a read is accepted. -/
theorem Held.readAt_window {req : RangeRequest} (hrev : req.revision = r) :
    s.mem.readAt s.log.lastRevision req = .ok r := by
  have hle := hr.applied.trans h.applied_le
  have hpoint := hr.point
  have hpos := hr.positive
  unfold readAt checkReadRevision
  rw [hrev, Int.toNat_natCast, if_pos (by omega), if_neg (by omega), if_neg (by omega)]
  rfl

/-- A listing of a range with only one key in it: nothing if the key has no entry or is internal, and
otherwise every put of the record. -/
theorem Held.listAt_only {start rangeEnd : Bytes} (honly : SelectsOnly start rangeEnd k) :
    ∃ resp, s.listAt start rangeEnd r = .ok resp ∧
      (s.mem.revisions.getLatestRevisionByKey k r = none → resp.kvs = []) ∧
      ∀ w x, s.mem.revisions.getLatestRevisionByKey k r = some w →
        s.log.read w = .ok x → resp.kvs = if isInternalKey k then [] else
          (x.events.filter fun e => e.type = .put).map (·.kv) := by
  have hlist : s.mem.list s.log.read s.log.lastRevision (listRequest start rangeEnd r) = _ :=
    h.fetches.list_eq rfl (h.readAt_window hr rfl)
  have hlimit : (listRequest start rangeEnd r).limit ≤ 0 := le_rfl
  rw [page_eq_self (Or.inl hlimit)] at hlist
  -- Only the entry of the key adds anything.
  have hother : ∀ e ∈ s.mem.revisions.entries, e.1 ≠ k → listed s.log.read
      (listRequest start rangeEnd r) rangeEnd r e.1 e.2.revisions = [] := by
    intro e _ hne
    have hout : ¬ InRange start rangeEnd e.1 := fun hin => hne ((honly e.1).mp hin)
    simp [listed, listRequest, hout]
  obtain ⟨hone, hnone⟩ := flatMap_eq_of_key s.mem.revisions.entries_pairwise hother
  cases hslot : s.mem.revisions.slotOf k with
  | none =>
    rw [hnone fun b hb => by simp [BPTree.mem_entries.mp hb] at hslot] at hlist
    refine ⟨_, hlist, fun _ => rfl, fun w x hl => ?_⟩
    simp [BPTree.getLatestRevisionByKey, BPTree.revisionsOf, hslot] at hl
  | some slot =>
    rw [hone slot (BPTree.mem_entries.mpr hslot)] at hlist
    have hin : InRange ((listRequest start rangeEnd r).key.getD []) rangeEnd k := (honly k).mpr rfl
    have hrevs : s.mem.revisions.getLatestRevisionByKey k r = Timeline.latest slot.revisions r := by
      simp [BPTree.getLatestRevisionByKey, BPTree.revisionsOf, hslot]
    rw [hrevs]
    refine ⟨_, hlist, fun hl => ?_, fun w x hl hx => ?_⟩
    · show listed _ _ _ _ _ _ = _
      simp [listed, hl]
    · show listed _ _ _ _ _ _ = _
      cases hint : isInternalKey k with
      | true => simp [listed, hint]
      | false =>
        simp only [listed, hin, hint, and_self, if_true, hl, hx]
        rfl

end

end Store

/-! ## The last write -/

/-- A `Get` of the key at the revision returns this value, or nothing, and a `List` of any range that holds
only the key returns the same. -/
def Store.ReadsAs (s : Store) (k : Bytes) (r : Nat) (write : Option Bytes) : Prop :=
  ∃ got, s.getAt k r = .ok got ∧ got.kvs.map (·.value) = write.toList ∧
    ∀ start rangeEnd, SelectsOnly start rangeEnd k →
      ∃ listed, s.listAt start rangeEnd r = .ok listed ∧ listed.kvs = got.kvs

/-- The first write of the key that stages an event says what the last write says; an ordinary key that stages
an event is put at most once, by its last write, and nothing else is put in the branch; an internal key is
deleted last. -/
structure LastWriteFirst (indexed : Bool) (k : Bytes) (ops : List RequestOp) (write : Option Bytes) :
    Prop where
  first : (stagedWrites indexed k ops).head?.join = write
  alone : k ≠ [] → isInternalKey k = false → stagedWrites indexed k ops ≠ [] →
    (putsOf ops).length = write.toList.length
  internal : isInternalKey k = true → write = none

/-- The puts of a record are what one of its events leaves behind exactly if there are as many. -/
theorem puts_eq_iff {events : List Event} {e : Event} (he : e ∈ events) :
    (events.filter fun e => e.type = .put).map (·.kv) = (liveKv (some e)).toList ↔
      (events.filter fun e => e.type = .put).length = e.write.toList.length := by
  cases htype : e.type with
  | delete => simp [liveKv, Event.write, htype]
  | put =>
    simp only [liveKv, Event.write, htype, Option.bind_some, Option.toList_some,
      List.length_singleton]
    constructor
    · intro heq
      simpa using congrArg List.length heq
    · intro hlen
      -- The one put is the event itself.
      obtain ⟨e', hputs⟩ := List.length_eq_one_iff.mp hlen
      have hmem : e ∈ events.filter fun e => e.type = .put :=
        List.mem_filter.mpr ⟨he, by simpa using htype⟩
      rw [hputs] at hmem ⊢
      rw [List.mem_singleton.mp hmem, List.map_singleton]

theorem liveKv_values (e : Event) : (liveKv (some e)).toList.map (·.value) = e.write.toList := by
  cases htype : e.type <;> simp [liveKv, Event.write, htype]

theorem liveKv_eq_nil_iff (e : Event) : [] = (liveKv (some e)).toList ↔ e.write = none := by
  cases htype : e.type <;> simp [liveKv, Event.write, htype]

theorem toList_inj {α : Type*} {a b : Option α} : a.toList = b.toList ↔ a = b := by
  cases a <;> cases b <;> simp

namespace Store

variable {s : Store} {k : Bytes} {write : Option Bytes}

section

variable {r : Nat} (h : s.Held) (hr : s.Window r)
include h hr

theorem Held.getAt_window {event : Option Event}
    (hprev : s.mem.prevEvent s.log.read k r = .ok event) :
    ∃ got, s.getAt k r = .ok got ∧ got.kvs = (liveKv event).toList := by
  have hat : s.mem.readAt s.log.lastRevision { key := some k, revision := r } = .ok r :=
    h.readAt_window hr rfl
  refine ⟨_, h.fetches.get_eq rfl rfl rfl hat hprev, ?_⟩
  rw [getResponse_kvs]
  cases liveKv event <;> simp [viewKv]

/-- A key without an entry reads as absent. -/
theorem Held.readsAs_of_none (hl : s.mem.revisions.getLatestRevisionByKey k r = none) :
    s.ReadsAs k r none := by
  have hprev : s.mem.prevEvent s.log.read k r = .ok none := by
    rw [prevEvent, hl]
  obtain ⟨got, hget, hnil⟩ := h.getAt_window hr hprev
  refine ⟨got, hget, by rw [hnil]; rfl, fun start rangeEnd honly => ?_⟩
  obtain ⟨listed, hlisted, hlkvs, -⟩ := h.listAt_only hr honly
  exact ⟨listed, hlisted, by rw [hlkvs hl, hnil]; rfl⟩

/-- A key whose entry is a record reads as the record's first event on it says, if its listing, should a range
hold it alone, does so too. -/
theorem Held.readsAs_of_record {w : Nat} {x : LogRecord} {e : Event}
    (hl : s.mem.revisions.getLatestRevisionByKey k r = some w)
    (hread : s.log.read w = .ok x) (hfind : findEvent x k = some e) :
    s.ReadsAs k r write ↔ e.write = write ∧ (k ≠ [] →
      (if isInternalKey k then [] else (x.events.filter fun e => e.type = .put).map (·.kv)) =
        (liveKv (some e)).toList) := by
  have hprev : s.mem.prevEvent s.log.read k r = .ok (some e) := by
    simp [prevEvent, hl, fetchEvent, hread, hfind, Except.map]
  obtain ⟨got, hget, hkvs⟩ := h.getAt_window hr hprev
  constructor
  · rintro ⟨got', hgot, hvalues, hranges⟩
    rw [hget] at hgot
    cases hgot
    rw [hkvs, liveKv_values, toList_inj] at hvalues
    refine ⟨hvalues, fun hne => ?_⟩
    obtain ⟨start, rangeEnd, honly⟩ := (exists_selectsOnly_iff k).mpr hne
    obtain ⟨listed, hlisted, hsame⟩ := hranges start rangeEnd honly
    obtain ⟨listed', hlisted', -, hlkvs⟩ := h.listAt_only hr honly
    rw [hlisted] at hlisted'
    cases hlisted'
    rw [← hlkvs w x hl hread, hsame, hkvs]
  · rintro ⟨hvalues, hsame⟩
    refine ⟨got, hget, by rw [hkvs, liveKv_values, hvalues], fun start rangeEnd honly => ?_⟩
    obtain ⟨listed, hlisted, -, hlkvs⟩ := h.listAt_only hr honly
    refine ⟨listed, hlisted, ?_⟩
    rw [hlkvs w x hl hread, hsame ((exists_selectsOnly_iff k).mp ⟨start, rangeEnd, honly⟩), hkvs]

/-- How a key reads whose entry is a record with the events that the operations stage for it. -/
theorem Held.readsAs_iff {w : Nat} {x : LogRecord} {indexed : Bool}
    (hl : s.mem.revisions.getLatestRevisionByKey k r = some w) (hread : s.log.read w = .ok x)
    (hwrites : (x.events.filter fun e => e.kv.key = k).map Event.write = stagedWrites indexed k ops)
    (hputs : (x.events.filter fun e => e.type = .put).length = (putsOf ops).length) :
    s.ReadsAs k r write ↔ LastWriteFirst indexed k ops write := by
  obtain ⟨y, e, hread', hfind⟩ := h.fetches.record hl
  obtain rfl : x = y := Except.ok.inj (hread.symm.trans hread')
  have he : e ∈ x.events := (findEvent_eq_some hfind).1
  have hfirst : (stagedWrites indexed k ops).head? = some e.write := by
    rw [← hwrites, List.head?_map, List.head?_filter]
    show (findEvent x k).map Event.write = _
    rw [hfind, Option.map_some]
  have hjoin : (stagedWrites indexed k ops).head?.join = e.write := by
    rw [hfirst]
    rfl
  have hstaged : stagedWrites indexed k ops ≠ [] := by
    intro hnil
    rw [hnil] at hfirst
    cases hfirst
  rw [h.readsAs_of_record hr hl hread hfind]
  constructor
  · rintro ⟨rfl, hsame⟩
    refine ⟨hjoin, fun hne hint _ => ?_, fun hint => ?_⟩
    · have hlisted := hsame hne
      rw [if_neg (by simp [hint]), puts_eq_iff he] at hlisted
      rw [← hputs, hlisted]
    · have hne : k ≠ [] := by
        rintro rfl
        cases hint
      have hlisted := hsame hne
      rw [if_pos hint] at hlisted
      exact (liveKv_eq_nil_iff e).mp hlisted
  · rintro ⟨hwrite, halone, hinternal⟩
    obtain rfl : e.write = write := hjoin.symm.trans hwrite
    refine ⟨rfl, fun hne => ?_⟩
    cases hint : isInternalKey k with
    | true => rw [if_pos rfl, (liveKv_eq_nil_iff e).mpr (hinternal hint)]
    | false =>
      rw [if_neg (by simp), puts_eq_iff he, hputs]
      exact halone hne hint hstaged

end

end Store

/-! ## A committed transaction -/

theorem restampEvent_frame (r : Nat) (e : Event) :
    (restampEvent r e).kv.key = e.kv.key ∧ (restampEvent r e).type = e.type ∧
      (restampEvent r e).write = e.write := by
  cases htype : e.type <;> simp [restampEvent, htype, Event.write]

/-- Re-stamping changes neither the writes of a key nor the puts. -/
theorem restamp_writes (r : Nat) (events : List Event) (k : Bytes) :
    ((restamp r ⟨events⟩).events.filter fun e => e.kv.key = k).map Event.write =
        (events.filter fun e => e.kv.key = k).map Event.write ∧
      ((restamp r ⟨events⟩).events.filter fun e => e.type = .put).length =
        (events.filter fun e => e.type = .put).length := by
  have hframe := restampEvent_frame r
  simp only [restamp, List.filter_map, List.map_map, List.length_map]
  constructor
  · have hsame : ((fun e : Event => decide (e.kv.key = k)) ∘ restampEvent r) =
        fun e => decide (e.kv.key = k) := by
      funext e
      simp [(hframe e).1]
    rw [hsame]
    exact List.map_congr_left fun e _ => (hframe e).2.2
  · have hsame : ((fun e : Event => decide (e.type = .put)) ∘ restampEvent r) =
        fun e => decide (e.type = .put) := by
      funext e
      simp [(hframe e).2.1]
    rw [hsame]

/-- If the last event that is staged for a key is a delete, so is the key's last write. -/
theorem last_write_of_staged {indexed : Bool} {k : Bytes} {write : Option Bytes}
    (hwrite : (writesOf k ops).getLast? = some write)
    (hlast : (stagedWrites indexed k ops).getLast? = some none) : write = none := by
  have hmem := (List.mem_filter.mp (List.mem_of_getLast? hlast)).2
  have hall : stagedWrites indexed k ops = writesOf k ops :=
    List.filter_eq_self.mpr fun w _ => by simp_all
  rw [hall, hwrite] at hlast
  exact Option.some.inj hlast

/-- A key that is written and stages nothing has no entry, and is only deleted. -/
theorem none_of_quiet {indexed : Bool} {k : Bytes} {write : Option Bytes}
    (hwrite : (writesOf k ops).getLast? = some write) (hquiet : stagedWrites indexed k ops = []) :
    indexed = false ∧ write = none := by
  have hnot := List.filter_eq_nil_iff.mp hquiet write (List.mem_of_getLast? hwrite)
  cases write <;> simp_all

/-- Whether the index had an entry for a key when the transaction was evaluated. -/
def Submission.indexed (sub : Submission) (k : Bytes) : Bool :=
  (sub.ev.store.mem.revisions.getLatestRevisionByKey k sub.ev.txn.snapshotTimestamp).isSome

/-- The branch that was executed. -/
def Submission.branch (sub : Submission) : List RequestOp := sub.req.branch sub.ev.resp.succeeded

variable {R : TxnRequest → Prop} {base : LogHistory} {p0 : Nat} {sys sys' : System}
variable {a : Nat × PendingTxn} {sub : Submission} {k : Bytes} {write : Option Bytes}

/-- An entry at or below the snapshot was already there when the transaction was evaluated. -/
theorem EvalInv.indexed {store : Store} {r : Nat} (h : EvalInv R p0 store sub.req sub.ev)
    (hr : r ∈ store.mem.revisions.revisionsOf k) (hle : r ≤ sub.ev.txn.snapshotTimestamp)
    (hw : Writes store.history k r) : sub.indexed k = true := by
  have hthen := h.then_held.tracks
  have hmem : r ∈ sub.ev.store.mem.revisions.revisionsOf k := by
    by_cases hpoint : r ≤ sub.ev.store.mem.compacted
    · exact h.later.forgets k r hpoint hr
    · -- Above the point the index has every write, and the record was in the history.
      obtain ⟨new, hnew, hgt⟩ := h.later.history
      have happlied : r ≤ sub.ev.store.mem.applied := hle.trans h.applied
      rw [hnew, writes_append] at hw
      rcases hw with hw | ⟨x, hx, -⟩
      · exact (hthen.index k).above r (not_le.mp hpoint) happlied hw
      · exact absurd (hgt _ hx) (not_lt.mpr (happlied.trans h.then_held.applied_le))
  unfold Submission.indexed
  rw [Option.isSome_iff_ne_none]
  intro hnone
  exact absurd hle (not_le.mpr (Timeline.latest_eq_none_iff.mp hnone r hmem))

namespace System

section

variable (h : Core R base p0 sys) (ha : a ∈ sys.batcher.accepted)
variable (hcom : Committed sys.submissions a sub)
include h hcom

/-- The writes and the puts of the record of a committed transaction. -/
theorem Core.record_writes (k : Bytes) :
    (a.2.logRecord.events.filter fun e => e.kv.key = k).map Event.write =
        stagedWrites (sub.indexed k) k sub.branch ∧
      (a.2.logRecord.events.filter fun e => e.type = .put).length = (putsOf sub.branch).length := by
  have hev := h.submissions sub (List.mem_of_getElem? hcom.found)
  obtain ⟨hwrites, hputs⟩ := writes_evaluate k hev.evaluated
  obtain ⟨hrewrites, hreputs⟩ := restamp_writes a.1 sub.ev.txn.logEvents k
  rw [hcom.logRecord]
  exact ⟨hrewrites.trans hwrites, hreputs.trans hputs⟩

include ha

/-- A key that the record is not indexed for has no entry at its revision, and its last write was a delete. -/
theorem Core.unindexed (hr : sys.store.Window a.1) (hwrite : (writesOf k sub.branch).getLast? = some write)
    (hquiet : stagedWrites (sub.indexed k) k sub.branch = [] → ∀ w,
      sub.ev.txn.snapshotTimestamp < w → w < a.1 → ¬ Writes sys.store.history k w)
    (hnot : a.1 ∉ sys.store.mem.revisions.revisionsOf k) :
    sys.store.mem.revisions.getLatestRevisionByKey k a.1 = none ∧ write = none := by
  have htracks := h.held.tracks
  have hev := h.submissions sub (List.mem_of_getElem? hcom.found)
  have hx := h.record_mem ha
  obtain ⟨hwrites, -⟩ := h.record_writes hcom k
  cases hon : lastOn a.2.logRecord k with
  | none =>
    -- Nothing was staged for the key.
    have hnil : stagedWrites (sub.indexed k) k sub.branch = [] := by
      rw [← hwrites, List.map_eq_nil_iff]
      exact List.getLast?_eq_none_iff.mp hon
    obtain ⟨hindexed, hnone⟩ := none_of_quiet hwrite hnil
    refine ⟨?_, hnone⟩
    cases hl : sys.store.mem.revisions.getLatestRevisionByKey k a.1 with
    | none => rfl
    | some r =>
      have hmem := Timeline.mem_of_latest hl
      have hne : r ≠ a.1 := fun heq => hnot (heq ▸ hmem)
      have hlt : r < a.1 := lt_of_le_of_ne (Timeline.le_of_latest hl) hne
      have hw := ((htracks.index k).written r hmem).1
      have hle : r ≤ sub.ev.txn.snapshotTimestamp := not_lt.mp fun hgt => hquiet hnil r hgt hlt hw
      rw [hev.indexed hmem hle hw] at hindexed
      cases hindexed
  | some e =>
    -- The record has the last event on the key, and only a tombstone can be missing.
    have hlast : lastEvent sys.store.history k a.1 = some (a.1, e) :=
      (lastEvent_eq_some_iff_of_ascending htracks.ascending).mpr
        ⟨⟨_, hx, le_rfl, hon⟩, fun _ hle _ => hle⟩
    have hl : sys.store.mem.revisions.getLatestRevisionByKey k a.1 = none := by
      cases hl : sys.store.mem.revisions.getLatestRevisionByKey k a.1 with
      | none => rfl
      | some r =>
        obtain ⟨_, _, -, -, -, hlast'⟩ := htracks.record_of_latest hr.applied hl
        obtain ⟨rfl, -⟩ := Prod.mk.inj (Option.some.inj (hlast'.symm.trans hlast))
        exact absurd (Timeline.mem_of_latest hl) hnot
    have hdeleted : (stagedWrites (sub.indexed k) k sub.branch).getLast? = some none → write = none :=
      last_write_of_staged hwrite
    refine ⟨hl, hdeleted ?_⟩
    have hgone := (htracks.index k).latest_none htracks.ascending hr.point hr.applied hl
    rw [stateAt_of_last hlast] at hgone
    have hdelete : e.write = none := by
      cases htype : e.type <;> simp_all [Event.write, liveKv]
    rw [← hwrites, List.getLast?_map]
    show (lastOn a.2.logRecord k).map Event.write = _
    rw [hon, Option.map_some, hdelete]

theorem Core.reads_last_iff (hr : sys.store.Window a.1)
    (hwrite : (writesOf k sub.branch).getLast? = some write)
    (hquiet : stagedWrites (sub.indexed k) k sub.branch = [] → ∀ w,
      sub.ev.txn.snapshotTimestamp < w → w < a.1 → ¬ Writes sys.store.history k w) :
    sys.store.ReadsAs k a.1 write ↔
      (a.1 ∈ sys.store.mem.revisions.revisionsOf k →
        LastWriteFirst (sub.indexed k) k sub.branch write) := by
  have htracks := h.held.tracks
  by_cases hmem : a.1 ∈ sys.store.mem.revisions.revisionsOf k
  · -- The index leads to the record of the transaction.
    have hl : sys.store.mem.revisions.getLatestRevisionByKey k a.1 = some a.1 :=
      (Timeline.latest_eq_some_iff (htracks.index k).sorted).mpr ⟨hmem, le_rfl, fun _ _ hle => hle⟩
    obtain ⟨x, hx, hread⟩ := htracks.reads k a.1 hmem
    obtain rfl := unique_of_ascending htracks.ascending hx (h.record_mem ha)
    obtain ⟨hwrites, hputs⟩ := h.record_writes hcom k
    rw [h.held.readsAs_iff hr hl hread hwrites hputs]
    exact ⟨fun hlast _ => hlast, fun hlast => hlast hmem⟩
  · obtain ⟨hl, rfl⟩ := h.unindexed ha hcom hr hwrite hquiet hmem
    exact iff_of_true (h.held.readsAs_of_none hr hl) fun hin => absurd hin hmem

end

/-- The evaluation of a transaction ends the process exactly if it comes to a delete that finds a delete. -/
theorem Bare.halts_iff {i s : Nat} {req : TxnRequest} (h : Bare sys)
    (hready : sys.ready i = some (req, s)) (hstep : sys.step (.evaluate i) = some sys') :
    sys'.halted = true ↔
      ∃ t dreq, sys.store.mem.ReachesDelete sys.store.log.read req s t dreq ∧
        dreq.rangeEnd = none ∧ sys.store.mem.FindsDelete sys.store.log.read s dreq.key := by
  obtain ⟨attempt, hc⟩ := ready_eq_some hready
  have halive : sys.halted = false := by
    rw [System.step] at hstep
    split at hstep
    · cases hstep
    · next halive => exact Bool.not_eq_true _ ▸ halive
  have hmove := move_of_step hstep
  simp only [move, hc, Option.bind_some, evaluate] at hmove
  rw [← h.held.fetches.evaluate_fatal_iff]
  split at hmove
  · next resp txn heval =>
    cases hmove
    simp [setPhase, halive, heval]
  · next heval =>
    cases hmove
    simp [heval]
  · next e hne heval =>
    cases hmove
    simp only [setPhase, halive, heval, Bool.false_eq_true, Except.error.injEq, false_iff]
    rintro rfl
    exact hne rfl

end System

/-- In every run.  The evaluation of a transaction does not end the process exactly if no delete that it comes
to finds a delete.  What the history has gained are the records of committed transactions.  And while its
revision can be read, the last write of a key is what is read there exactly if the first one that staged an
event says the same, unless the record is a tombstone that has been compacted away; if the key was only
deleted and had no entry, this is for a key that nobody else wrote in between. -/
theorem repeated_writes_iff {env : LeaseEnv} {log : FilesystemLog} {sys₀ sys : System}
    {actions : List System.Action} (hwf : log.WF) (hcache : log.cache.ll = [])
    (hstart : System.start env log = .ok sys₀)
    (hrun : Transition.run System.step sys₀ actions = some sys) :
    (∀ i req s sys', sys.ready i = some (req, s) → sys.step (.evaluate i) = some sys' →
      (sys'.halted = false ↔
        ∀ t dreq, sys.store.mem.ReachesDelete sys.store.log.read req s t dreq →
          dreq.rangeEnd = none → ¬ sys.store.mem.FindsDelete sys.store.log.read s dreq.key)) ∧
    (∀ p ∈ sys.store.history, p ∈ sys₀.store.history ∨
      ∃ a ∈ sys.batcher.accepted, p = (a.1, a.2.logRecord)) ∧
    ∀ a ∈ sys.batcher.accepted, ∀ sub, Committed sys.submissions a sub →
      sys.store.Window a.1 → ∀ k write, (writesOf k sub.branch).getLast? = some write →
      (stagedWrites (sub.indexed k) k sub.branch = [] → ∀ w,
        sub.ev.txn.snapshotTimestamp < w → w < a.1 → ¬ Writes sys.store.history k w) →
      (sys.store.ReadsAs k a.1 write ↔
        (a.1 ∈ sys.store.mem.revisions.revisionsOf k →
          LastWriteFirst (sub.indexed k) k sub.branch write)) := by
  have hcore := System.Core.of_run hwf hcache hstart hrun
  refine ⟨fun i req s sys' hready hstep => ?_, fun p hp => ?_, ?_⟩
  · have hhalts := hcore.toBare.halts_iff hready hstep
    rw [← Bool.not_eq_true, hhalts]
    simp only [not_exists, not_and]
  · rw [hcore.history] at hp
    refine (List.mem_append.mp hp).imp id fun hnew => ?_
    obtain ⟨a, ha, rfl⟩ := List.mem_map.mp hnew
    exact ⟨a, ha, rfl⟩
  · intro a ha sub hcom hr k write hwrite hquiet
    exact hcore.reads_last_iff ha hcom hr hwrite hquiet

/-- A transaction that puts key 1 twice. -/
def putRepeatedly : TxnRequest :=
  { success := [.put { key := [1], value := [1] }, .put { key := [1], value := [2] }] }

/-- On a fresh process, `Get` returns the first value afterwards, and `List` both. -/
theorem repeated_puts_read_first : ∃ sys,
    System.runFresh noLeases ⟨0, 0⟩ (System.callAlone 0 putRepeatedly) = some sys ∧
    sys.batcher.accepted.map Prod.fst = [2] ∧
    (sys.store.getAt [1] 2).toOption.map (fun r => r.kvs.map (·.value)) = some [[1]] ∧
    (sys.store.listAt [1] [1, 0] 2).toOption.map (fun r => r.kvs.map (·.value)) =
      some [[1], [2]] ∧
    ¬ sys.store.ReadsAs [1] 2 (some [2]) := by
  obtain ⟨sys, hsys, haccepted, hget, hlist⟩ :
      ∃ sys, System.runFresh noLeases ⟨0, 0⟩ (System.callAlone 0 putRepeatedly) = some sys ∧
        sys.batcher.accepted.map Prod.fst = [2] ∧
        (sys.store.getAt [1] 2).toOption.map (fun r => r.kvs.map (·.value)) = some [[1]] ∧
        (sys.store.listAt [1] [1, 0] 2).toOption.map (fun r => r.kvs.map (·.value)) =
          some [[1], [2]] := by
    decide +kernel
  refine ⟨sys, hsys, haccepted, hget, hlist, ?_⟩
  -- The last write is the second put, and the first is read.
  rintro ⟨got, hgot, hvalue, -⟩
  rw [hgot] at hget
  have hfirst : got.kvs.map (·.value) = [[1]] := Option.some.inj hget
  rw [hfirst] at hvalue
  exact absurd hvalue (by decide)

/-- A transaction that deletes key 1 and then puts it. -/
def deleteThenPut : TxnRequest :=
  { success := [.deleteRange { key := [1] }, .put { key := [1], value := [2] }] }

/-- While the key is not in the index, that ends in the put. -/
theorem repeated_writes_deleteThenPut : ∃ sys,
    System.runFresh noLeases ⟨0, 0⟩ (System.callAlone 0 deleteThenPut) = some sys ∧
    sys.store.ReadsAs [1] 2 (some [2]) := by
  obtain ⟨sys, hsys, haccepted, hpoint, happlied, hsubs⟩ :
      ∃ sys, System.runFresh noLeases ⟨0, 0⟩ (System.callAlone 0 deleteThenPut) = some sys ∧
        sys.batcher.accepted.map Prod.fst = [2] ∧
        sys.store.mem.compacted ≤ 2 ∧ 2 ≤ sys.store.mem.applied ∧
        ∀ sub ∈ sys.submissions, sub.branch = deleteThenPut.success ∧ sub.indexed [1] = false := by
    decide +kernel
  obtain ⟨log, sys₀, -, hlog, hstart, hrun⟩ := System.runFresh_eq_some hsys
  obtain ⟨a, ha, hrev⟩ : ∃ a ∈ sys.batcher.accepted, a.1 = 2 := by
    rw [← List.mem_map, haccepted]
    exact List.mem_singleton_self 2
  obtain ⟨sub, hcom⟩ := (System.Core.of_run hlog.files hlog.cache hstart hrun).accepted a ha
  obtain ⟨hbranch, hindexed⟩ := hsubs sub (List.mem_of_getElem? hcom.found)
  refine ⟨sys, hsys, hrev ▸ ?_⟩
  have hreads := (repeated_writes_iff hlog.files hlog.cache hstart hrun).2.2 a ha sub hcom
    ⟨by omega, by omega, by omega⟩ [1] (some [2])
  rw [hindexed, hbranch] at hreads
  refine (hreads rfl fun hnil => absurd hnil (by decide)).mpr fun _ => ?_
  exact ⟨by decide, fun _ _ _ => by decide, by decide⟩

end CloudEtcd
