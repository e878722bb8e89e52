/-
# CloudEtcd.Storage.Listing — what a range read returns, against point reads of its keys.

`Get` picks the event of its key out of a record; `List` walks the index and takes every put of the
record it lands on.  `listed` is what one key of the index contributes to a listing, and a `List` returns
the part of all contributions that its limit lets through (`Fetches.list_eq`).  A key's contribution is the
answer of `Get` when the record puts no other key (`Coherent.listed_iff`).  Answers of `Get` are part of what
is listed, so a listing as a whole is right exactly when each key's part is (`flatMap_eq_flatMap_iff`).
-/
import CloudEtcd.Storage.SnapshotReads

namespace CloudEtcd

open MemoryStorage BPTree Timeline

variable {x : LogRecord} {e : Event}

open History

/-- The half-open range of a request; an end of one zero byte leaves it unbounded. -/
def InRange (start rangeEnd key : Bytes) : Prop :=
  start ≤ key ∧ (rangeEnd = [0] ∨ key < rangeEnd)

instance (start rangeEnd key : Bytes) : Decidable (InRange start rangeEnd key) :=
  inferInstanceAs (Decidable (_ ∧ _))

namespace MemoryStorage

variable {m : MemoryStorage} {log : LogReader} {req : RangeRequest} {q : Nat}

/-! ## The walk over the index -/

/-- The puts of a record, as the request wants them. -/
def putKvs (req : RangeRequest) (events : List Event) : List KeyValue :=
  (events.filter fun e => e.type = .put).map fun e => viewKv req e.kv

/-- The part of a listing that a limit lets through. -/
def page {α : Type*} (limit : Int) (vals : List α) : List α :=
  if limit ≤ 0 then vals else vals.take limit.toNat

/-- The limit is reached with `n` keys. -/
def full (limit : Int) (n : Nat) : Bool := decide (0 < limit ∧ limit ≤ n)

section Page

variable {α : Type*} {limit : Int} {vals : List α}

theorem page_eq_self (h : limit ≤ 0 ∨ (vals.length : Int) ≤ limit) : page limit vals = vals := by
  unfold page
  split
  · rfl
  · exact List.take_of_length_le (by omega)

theorem page_of_not_full (h : full limit vals.length = false) : page limit vals = vals := by
  have hnot := of_decide_eq_false h
  exact page_eq_self (by omega)

/-- Nothing gets through behind a full page. -/
theorem page_append_of_full (h : full limit vals.length = true) (rest : List α) :
    page limit (vals ++ rest) = page limit vals := by
  obtain ⟨hpos, hle⟩ := of_decide_eq_true h
  rw [page, page, if_neg (not_le.mpr hpos), if_neg (not_le.mpr hpos),
    List.take_append_of_le_length (by omega)]

theorem mem_of_mem_page {x : α} (h : x ∈ page limit vals) : x ∈ vals := by
  unfold page at h
  split at h
  · exact h
  · exact List.mem_of_mem_take h

end Page

/-- The response of `List` with these keys in it. -/
def collected (req : RangeRequest) (q : Nat) (vals : List KeyValue) : RangeResponse where
  header := createHeader q
  kvs := if req.countOnly then [] else vals
  more := full req.limit vals.length
  count := vals.length

theorem mem_of_mem_collected {vals : List KeyValue} {kv : KeyValue}
    (h : kv ∈ (collected req q vals).kvs) : kv ∈ vals := by
  unfold collected at h
  dsimp only at h
  split at h
  · simp at h
  · exact h

/-- The loop over the events of a record appends its puts, as far as the limit lets them through. -/
theorem listEvents_eq {vals : List KeyValue} (hroom : full req.limit vals.length = false)
    (events : List Event) :
    listEvents req (collected req q vals) events =
      (collected req q (page req.limit (vals ++ putKvs req events)),
        !full req.limit (vals ++ putKvs req events).length) := by
  induction events generalizing vals with
  | nil => simp [listEvents, putKvs, page_of_not_full hroom, hroom]
  | cons e events ih =>
    cases htype : e.type with
    | put =>
      have hputs : vals ++ putKvs req (e :: events) =
          (vals ++ [viewKv req e.kv]) ++ putKvs req events := by
        simp [putKvs, htype]
      -- The response with this put in it, before the limit is looked at.
      have hnext : ({ collected req q vals with
          count := (collected req q vals).count + 1
          kvs := if req.countOnly then (collected req q vals).kvs
            else (collected req q vals).kvs ++ [viewKv req e.kv] } : RangeResponse) =
          { collected req q (vals ++ [viewKv req e.kv]) with more := false } := by
        cases hcount : req.countOnly <;> simp [collected, hcount, hroom]
      have hlen : (vals ++ putKvs req (e :: events)).length =
          (vals ++ [viewKv req e.kv]).length + (putKvs req events).length := by
        rw [hputs, List.length_append]
      simp only [listEvents, htype, hnext]
      show (if 0 < req.limit ∧ req.limit ≤ ((vals ++ [viewKv req e.kv]).length : Int) then _
        else _) = _
      cases hfull : full req.limit (vals ++ [viewKv req e.kv]).length with
      | true =>
        have hstop := of_decide_eq_true hfull
        have hpage : page req.limit (vals ++ putKvs req (e :: events)) =
            vals ++ [viewKv req e.kv] := by
          rw [hputs, page_append_of_full hfull]
          refine page_eq_self (Or.inr ?_)
          have := of_decide_eq_false hroom
          simp only [List.length_append, List.length_singleton] at hstop ⊢
          omega
        have hmore : full req.limit (vals ++ putKvs req (e :: events)).length = true := by
          refine decide_eq_true ⟨hstop.1, hstop.2.trans ?_⟩
          rw [hlen]
          omega
        rw [if_pos hstop, hpage, hmore]
        simp only [collected, hfull, Bool.not_true]
      | false =>
        have hgo := of_decide_eq_false hfull
        have hrest := ih hfull
        rw [if_neg hgo, hputs, ← hrest]
        simp only [collected, hfull]
    | delete =>
      have hputs : putKvs req (e :: events) = putKvs req events := by simp [putKvs, htype]
      have hgo := of_decide_eq_false hroom
      simp only [listEvents, htype]
      rw [hputs, ← ih hroom]
      exact if_neg hgo

/-- What a key of the index, with its revisions, adds to a listing. -/
def listed (log : LogReader) (req : RangeRequest) (rangeEnd : Bytes) (q : Nat) (key : Bytes)
    (revisions : List Nat) : List KeyValue :=
  if InRange (req.key.getD []) rangeEnd key ∧ isInternalKey key = false then
    match latest revisions q with
    | none => []
    | some latest =>
      match log latest with
      | .error _ => []
      | .ok logEntry => putKvs req logEntry.events
  else []

/-- The callback on a key below the end of the range. -/
theorem listKey_of_lt {rangeEnd key : Bytes} {revisions : List Nat}
    (hkey : InRange (req.key.getD []) rangeEnd key)
    (hreads : ∀ w, latest revisions q = some w → ∃ x, log w = .ok x)
    {vals : List KeyValue} (hroom : full req.limit vals.length = false) (e : Option LogError) :
    listKey log req rangeEnd q (collected req q vals, e) key revisions =
      ((collected req q (page req.limit (vals ++ listed log req rangeEnd q key revisions)), e),
        !full req.limit (vals ++ listed log req rangeEnd q key revisions).length) := by
  have hgo : ¬ (rangeEnd ≠ [0] ∧ rangeEnd ≤ key) := by
    rintro ⟨hne, hle⟩
    exact hkey.2.elim hne fun hlt => absurd hlt (not_lt.mpr hle)
  cases hint : isInternalKey key with
  | true => simp [listKey, hgo, hint, listed, page_of_not_full hroom, hroom]
  | false =>
    cases hl : latest revisions q with
    | none => simp [listKey, hgo, hint, hl, listed, page_of_not_full hroom, hroom]
    | some w =>
      obtain ⟨x, hx⟩ := hreads w hl
      have hevents := listEvents_eq (q := q) hroom x.events
      simp [listKey, hgo, hint, hl, hx, listed, hkey, hevents]

/-- The walk over keys in ascending order, when every record it asks for can be read. -/
theorem scan_listKey (rangeEnd : Bytes) {entries : List (Bytes × Slot)}
    (hasc : entries.Pairwise fun a b => a.1 < b.1) (hstart : ∀ e ∈ entries, req.key.getD [] ≤ e.1)
    (hreads : ∀ e ∈ entries, ∀ w, latest e.2.revisions q = some w → ∃ x, log w = .ok x)
    {vals : List KeyValue} (hroom : full req.limit vals.length = false) (err : Option LogError) :
    (Radix.Node.scan (fun s key (slot : Slot) =>
      listKey log req rangeEnd q s key slot.revisions) entries (collected req q vals, err)).1 =
      (collected req q (page req.limit
        (vals ++ entries.flatMap fun e => listed log req rangeEnd q e.1 e.2.revisions)), err) := by
  induction entries generalizing vals with
  | nil => simp [Radix.Node.scan, page_of_not_full hroom]
  | cons e entries ih =>
    obtain ⟨key, slot⟩ := e
    obtain ⟨hlt, hasc⟩ := List.pairwise_cons.mp hasc
    have hkey : req.key.getD [] ≤ key := hstart _ List.mem_cons_self
    by_cases hin : rangeEnd = [0] ∨ key < rangeEnd
    · have hstep := listKey_of_lt ⟨hkey, hin⟩ (hreads _ List.mem_cons_self) hroom err
      rw [Radix.Node.scan, hstep, List.flatMap_cons, ← List.append_assoc]
      cases hfull : full req.limit
          (vals ++ listed log req rangeEnd q key slot.revisions).length with
      | true =>
        rw [page_append_of_full hfull]
        rfl
      | false =>
        rw [page_of_not_full hfull, Bool.not_false, if_pos rfl]
        exact ih hasc (fun e he => hstart e (List.mem_cons_of_mem _ he))
          (fun e he => hreads e (List.mem_cons_of_mem _ he)) hfull
    · -- The walk stops here, and no later key is in the range.
      obtain ⟨hne, hge⟩ := not_or.mp hin
      have hge := not_lt.mp hge
      have hnone : ∀ e ∈ (key, slot) :: entries,
          listed log req rangeEnd q e.1 e.2.revisions = [] := by
        intro e he
        have hge : rangeEnd ≤ e.1 := by
          rcases List.mem_cons.mp he with rfl | he
          · exact hge
          · exact hge.trans (hlt e he).le
        have hout : ¬ InRange (req.key.getD []) rangeEnd e.1 := fun h =>
          h.2.elim hne fun hlt => absurd hlt (not_lt.mpr hge)
        simp [listed, hout]
      rw [List.flatMap_eq_nil_iff.mpr hnone, List.append_nil, page_of_not_full hroom]
      simp [Radix.Node.scan, listKey, hne, hge]

end MemoryStorage

/-! ## One key: what is listed against what `Get` returns -/

/-- Lists built from parts of other lists are equal only if the parts are. -/
theorem flatMap_eq_flatMap_iff {α β : Type*} {l : List α} {f g : α → List β}
    (hsub : ∀ a ∈ l, (g a).length ≤ (f a).length) :
    l.flatMap f = l.flatMap g ↔ ∀ a ∈ l, f a = g a := by
  induction l with
  | nil => simp
  | cons a l ih =>
    have hl : ∀ b ∈ l, (g b).length ≤ (f b).length := fun b hb => hsub b (List.mem_cons_of_mem _ hb)
    have ha := hsub a List.mem_cons_self
    rw [List.flatMap_cons, List.flatMap_cons, List.forall_mem_cons, ← ih hl]
    constructor
    · intro heq
      have hlen := congrArg List.length heq
      have hle : (l.flatMap g).length ≤ (l.flatMap f).length := by
        rw [List.length_flatMap, List.length_flatMap]
        exact List.sum_le_sum hl
      simp only [List.length_append] at hlen
      exact List.append_inj heq (by omega)
    · rintro ⟨h1, h2⟩
      rw [h1, h2]

/-- The only put of a record is the event that all its puts agree with. -/
theorem filter_put_eq (hd : (x.events.map (·.kv.key)).Nodup) (he : e ∈ x.events)
    (hall : ∀ e' ∈ x.events, e'.type = .put → e'.kv.key = e.kv.key) :
    (x.events.filter fun e => e.type = .put) = if e.type = .put then [e] else [] := by
  have honly : ∀ e' ∈ x.events.filter fun e => e.type = .put, e' = e := by
    intro e' he'
    obtain ⟨hmem, htype⟩ := List.mem_filter.mp he'
    exact event_unique (ρ := LogRecord) hd hmem he (hall e' hmem (by simpa using htype))
  have hnodup : (x.events.filter fun e => e.type = .put).Nodup := hd.of_map.filter _
  by_cases htype : e.type = .put
  · have hmem : e ∈ x.events.filter fun e => e.type = .put :=
      List.mem_filter.mpr ⟨he, by simpa using htype⟩
    rw [if_pos htype]
    refine List.Perm.eq_singleton ((List.perm_ext_iff_of_nodup hnodup (by simp)).mpr fun e' => ?_)
    exact ⟨fun h => by simp [honly e' h], fun h => by simpa [List.mem_singleton.mp h] using hmem⟩
  · rw [if_neg htype, List.filter_eq_nil_iff]
    intro e' he' hput
    have heq := honly e' (List.mem_filter.mpr ⟨he', hput⟩)
    exact htype (by simpa [heq] using hput)

/-- The puts of a record that writes no key twice are the answer for one of its keys exactly when it
puts no other key. -/
theorem putKvs_eq_iff (hd : (x.events.map (·.kv.key)).Nodup) (he : e ∈ x.events)
    (req : RangeRequest) :
    putKvs req x.events =
        ((liveKv (some e)).map (viewKv req)).toList ↔
      ∀ e' ∈ x.events, e'.type = .put → e'.kv.key = e.kv.key := by
  constructor
  · intro heq e' he' hput
    have hmem : e' ∈ x.events.filter fun e => e.type = .put :=
      List.mem_filter.mpr ⟨he', by simpa using hput⟩
    have hlen := congrArg List.length heq
    rw [putKvs, List.length_map] at hlen
    cases htype : e.type with
    | put =>
      simp only [liveKv, Option.bind_some, htype, Option.map_some,
        Option.toList_some, List.length_singleton] at hlen
      obtain ⟨a, ha⟩ := List.length_eq_one_iff.mp hlen
      have hself : e ∈ x.events.filter fun e => e.type = .put :=
        List.mem_filter.mpr ⟨he, by simpa using htype⟩
      rw [ha, List.mem_singleton] at hmem hself
      rw [hmem, hself]
    | delete =>
      simp only [liveKv, Option.bind_some, htype, Option.map_none,
        Option.toList_none, List.length_nil, List.length_eq_zero_iff] at hlen
      rw [hlen] at hmem
      exact absurd hmem List.not_mem_nil
  · intro hall
    rw [putKvs, filter_put_eq hd he hall]
    cases htype : e.type <;> simp [liveKv, htype]

theorem length_le_putKvs (he : e ∈ x.events) (req : RangeRequest) :
    ((liveKv (some e)).map (viewKv req)).toList.length ≤
      (putKvs req x.events).length := by
  rw [putKvs, List.length_map]
  cases htype : e.type with
  | put =>
    have hself : e ∈ x.events.filter fun e => e.type = .put :=
      List.mem_filter.mpr ⟨he, by simpa using htype⟩
    simp only [liveKv, Option.bind_some, htype, Option.map_some,
      Option.toList_some, List.length_singleton]
    exact List.length_pos_of_mem hself
  | delete => simp [liveKv, htype]

/-! ## The whole listing -/

/-- The `KeyValue` that `Get` returns for a key when the rest of the request is as given. -/
def MemoryStorage.getKv (m : MemoryStorage) (log : LogReader) (snapshot : Nat)
    (req : RangeRequest) (key : Bytes) : Option KeyValue :=
  match m.get log snapshot { req with key := some key, rangeEnd := none } with
  | .ok resp => resp.kvs.head?
  | .error _ => none

/-- The listing of a range: in ascending key order and each once, what `get` returns for the keys in
the range that are not internal. -/
structure ListsExactly (start rangeEnd : Bytes) (get : Bytes → Option KeyValue)
    (kvs : List KeyValue) : Prop where
  ascending : kvs.Pairwise fun a b => a.key < b.key
  exact : ∀ kv, kv ∈ kvs ↔
    ∃ k, InRange start rangeEnd k ∧ isInternalKey k = false ∧ get k = some kv

/-- Ascending lists with the same elements are equal. -/
theorem eq_of_ascending {kvs kvs' : List KeyValue} (h : kvs.Pairwise fun a b => a.key < b.key)
    (h' : kvs'.Pairwise fun a b => a.key < b.key) (hmem : ∀ kv, kv ∈ kvs ↔ kv ∈ kvs') :
    kvs = kvs' := by
  have hnodup : ∀ {l : List KeyValue}, l.Pairwise (fun a b => a.key < b.key) → l.Nodup :=
    fun hl => hl.imp fun {a b} (hlt : a.key < b.key) (heq : a = b) =>
      absurd (heq ▸ hlt) (lt_irrefl b.key)
  have hperm : kvs.Perm kvs' := (List.perm_ext_iff_of_nodup (hnodup h) (hnodup h')).mpr hmem
  exact hperm.eq_of_pairwise (fun a b _ _ hab hba => absurd hab (lt_asymm hba)) h h'

/-- There is only one such listing. -/
theorem ListsExactly.unique {start rangeEnd : Bytes} {get : Bytes → Option KeyValue}
    {kvs kvs' : List KeyValue} (h : ListsExactly start rangeEnd get kvs)
    (h' : ListsExactly start rangeEnd get kvs') : kvs = kvs' :=
  eq_of_ascending h.ascending h'.ascending fun kv => (h.exact kv).trans (h'.exact kv).symm

section Coherent

variable {hist : LogHistory} {m : MemoryStorage} {log : LogReader} {snapshot q : Nat}
  {req : RangeRequest}
variable {k rangeEnd : Bytes} {kv : KeyValue}

theorem Coherent.getKv_eq (h : Coherent hist m log) (hcount : req.countOnly = false)
    (hat : m.readAt snapshot req = .ok q) (hq : q ≤ m.applied) (k : Bytes) :
    m.getKv log snapshot req k = (m.seen hist q k).map (viewKv req) := by
  have hget : m.get log snapshot { req with key := some k, rangeEnd := none } = _ :=
    h.get_eq rfl rfl hcount hat hq
  rw [getKv, hget]
  cases m.seen hist q k <;> rfl

theorem key_of_stateAt (hw : WellFormed hist) (hstate : stateAt hist q k = some kv) : kv.key = k := by
  unfold stateAt at hstate
  cases hlast : lastEvent hist k q with
  | none => simp [hlast, liveKv] at hstate
  | some p =>
    obtain ⟨r, e⟩ := p
    obtain ⟨⟨x, -, -, -, hk⟩, -⟩ := (lastEvent_eq_some_iff hw).mp hlast
    cases htype : e.type <;> simp [hlast, liveKv, htype] at hstate
    rw [← hstate]
    exact hk

theorem Coherent.key_of_seen (h : Coherent hist m log) (hseen : m.seen hist q k = some kv) :
    kv.key = k := by
  unfold seen at hseen
  split at hseen
  · exact key_of_stateAt h.wellFormed hseen
  · cases hseen

theorem viewKv_key (req : RangeRequest) (kv : KeyValue) : (viewKv req kv).key = kv.key := by
  unfold viewKv
  split <;> rfl

/-- What a key of the index should add to a listing. -/
def answered (m : MemoryStorage) (hist : LogHistory) (req : RangeRequest) (rangeEnd : Bytes)
    (q : Nat) (key : Bytes) : List KeyValue :=
  if InRange (req.key.getD []) rangeEnd key ∧ isInternalKey key = false then
    ((m.seen hist q key).map (viewKv req)).toList
  else []

/-- What is answered for a key is its own view, if the key is listed at all. -/
theorem Coherent.of_mem_answered (h : Coherent hist m log)
    (hkv : kv ∈ answered m hist req rangeEnd q k) :
    InRange (req.key.getD []) rangeEnd k ∧ isInternalKey k = false ∧ kv.key = k ∧
      (m.seen hist q k).map (viewKv req) = some kv := by
  unfold answered at hkv
  split at hkv
  · next hin =>
    rw [Option.mem_toList] at hkv
    obtain ⟨kv', hseen, rfl⟩ := Option.map_eq_some_iff.mp hkv
    refine ⟨hin.1, hin.2, ?_, hkv⟩
    rw [viewKv_key, h.key_of_seen hseen]
  · exact absurd hkv List.not_mem_nil

/-- A key that is seen has a slot in the index. -/
theorem slotOf_of_seen (hseen : m.seen hist q k = some kv) :
    ∃ slot, m.revisions.slotOf k = some slot := by
  cases hs : m.revisions.slotOf k with
  | some slot => exact ⟨slot, rfl⟩
  | none =>
    simp [seen, getLatestRevisionByKey, revisionsOf, hs,
      latest] at hseen

/-- The answers for the keys of the index, in its order, are the listing of what is seen. -/
theorem Coherent.listsExactly_seen (h : Coherent hist m log) (rangeEnd : Bytes) :
    ListsExactly (req.key.getD []) rangeEnd
      (fun k => (m.seen hist q k).map (viewKv req))
      (m.revisions.entries.flatMap fun e => answered m hist req rangeEnd q e.1) := by
  constructor
  · rw [List.pairwise_flatMap]
    refine ⟨?_, m.revisions.entries_pairwise.imp ?_⟩
    · intro e _
      unfold answered
      split
      · cases m.seen hist q e.1 <;> simp
      · exact List.Pairwise.nil
    · intro e e' hlt kv hkv kv' hkv'
      rw [(h.of_mem_answered hkv).2.2.1, (h.of_mem_answered hkv').2.2.1]
      exact hlt
  · intro kv
    rw [List.mem_flatMap]
    constructor
    · rintro ⟨e, -, hkv⟩
      obtain ⟨hin, hint, -, hseen⟩ := h.of_mem_answered hkv
      exact ⟨e.1, hin, hint, hseen⟩
    · rintro ⟨k, hin, hint, hget⟩
      obtain ⟨kv', hseen, -⟩ := Option.map_eq_some_iff.mp hget
      obtain ⟨slot, hslot⟩ := slotOf_of_seen hseen
      refine ⟨(k, slot), mem_entries.mpr hslot, ?_⟩
      rw [answered, if_pos ⟨hin, hint⟩, hget]
      simp

/-- They are the listing of the answers of `Get`. -/
theorem Coherent.listsExactly_answered (h : Coherent hist m log) (rangeEnd : Bytes)
    (hcount : req.countOnly = false) (hat : m.readAt snapshot req = .ok q) (hq : q ≤ m.applied) :
    ListsExactly (req.key.getD []) rangeEnd (m.getKv log snapshot req)
      (m.revisions.entries.flatMap fun e => answered m hist req rangeEnd q e.1) := by
  have hsame : m.getKv log snapshot req =
      fun k => (m.seen hist q k).map (viewKv req) :=
    funext (h.getKv_eq hcount hat hq)
  rw [hsame]
  exact h.listsExactly_seen rangeEnd

/-- The record that a key's listing comes from puts no other key. -/
def OwnRecord (m : MemoryStorage) (hist : LogHistory) (q : Nat) (k : Bytes) : Prop :=
  ∀ w x, m.revisions.getLatestRevisionByKey k q = some w → (w, x) ∈ hist →
    ∀ e ∈ x.events, e.type = .put → e.kv.key = k

/-- What one key of the index adds, against what it should add. -/
theorem Coherent.listed_iff (h : Coherent hist m log) (hq : q ≤ m.applied) {slot : Slot}
    (hslot : m.revisions.slotOf k = some slot) :
    (answered m hist req rangeEnd q k).length ≤
        (listed log req rangeEnd q k slot.revisions).length ∧
      (listed log req rangeEnd q k slot.revisions =
          answered m hist req rangeEnd q k ↔
        (InRange (req.key.getD []) rangeEnd k → isInternalKey k = false →
          OwnRecord m hist q k)) := by
  have hrevs : latest slot.revisions q = m.revisions.getLatestRevisionByKey k q := by
    simp [getLatestRevisionByKey, revisionsOf, hslot]
  by_cases hin : InRange (req.key.getD []) rangeEnd k ∧ isInternalKey k = false
  · rw [listed, answered, if_pos hin, if_pos hin, hrevs]
    cases hl : m.revisions.getLatestRevisionByKey k q with
    | none => simp [seen, hl, OwnRecord]
    | some w =>
      obtain ⟨x, e, hx, hlog, hfind, hlast⟩ := h.record_of_latest hq hl
      obtain ⟨he, hk⟩ := findEvent_eq_some hfind
      have hseen : m.seen hist q k = liveKv (some e) := by
        simp [seen, hl, stateAt_of_last hlast]
      have hown : OwnRecord m hist q k ↔
          ∀ e' ∈ x.events, e'.type = .put → e'.kv.key = e.kv.key := by
        rw [hk]
        constructor
        · exact fun hown => hown w x hl hx
        · intro hall w' x' hl' hx'
          obtain rfl := Option.some.inj (hl.symm.trans hl')
          obtain rfl := h.wellFormed.unique hx hx'
          exact hall
      simp only [hlog, hseen, hin.1, hin.2, forall_true_left, hown]
      exact ⟨length_le_putKvs he req, putKvs_eq_iff (h.wellFormed.distinct _ hx) he req⟩
  · rw [listed, answered, if_neg hin, if_neg hin]
    simp only [le_refl, true_and, true_iff]
    exact fun h1 h2 => absurd ⟨h1, h2⟩ hin

/-- A range read collects what the keys of the index add, up to its limit. -/
theorem MemoryStorage.Fetches.list_eq (h : m.Fetches log) (hend : req.rangeEnd = some rangeEnd)
    (hat : m.readAt snapshot req = .ok q) :
    m.list log snapshot req = .ok (collected req q (page req.limit
      (m.revisions.entries.flatMap fun e =>
        listed log req rangeEnd q e.1 e.2.revisions))) := by
  have hreads : ∀ e ∈ m.revisions.entries, ∀ w, latest e.2.revisions q = some w →
      ∃ x, log w = .ok x := by
    rintro ⟨k, slot⟩ he w hw
    have hslot := mem_entries.mp he
    obtain ⟨x, hx, -⟩ := h k w (by
      simpa [revisionsOf, hslot] using mem_of_latest hw)
    exact ⟨x, hx⟩
  -- The walk starts at the start key; the keys before it would add nothing.
  have hskip : (m.revisions.entries.filter fun e => req.key.getD [] ≤ e.1).flatMap
      (fun e => listed log req rangeEnd q e.1 e.2.revisions) =
      m.revisions.entries.flatMap fun e =>
        listed log req rangeEnd q e.1 e.2.revisions := by
    generalize m.revisions.entries = entries
    induction entries with
    | nil => rfl
    | cons e entries ih =>
      by_cases hle : req.key.getD [] ≤ e.1
      · simp [hle, ih]
      · have hout : ¬ InRange (req.key.getD []) rangeEnd e.1 := fun hin => hle hin.1
        have hnil : listed log req rangeEnd q e.1 e.2.revisions = [] := by
          simp [listed, hout]
        simp [hle, ih, hnil]
  have hroom : full req.limit ([] : List KeyValue).length = false :=
    decide_eq_false (by simp)
  have hscan := scan_listKey rangeEnd
    (m.revisions.entries_pairwise.filter fun e => req.key.getD [] ≤ e.1)
    (fun e he => by simpa using (List.mem_filter.mp he).2)
    (fun e he => hreads e (List.mem_filter.mp he).1) hroom none
  have hempty : ({ header := createHeader q } : RangeResponse) =
      collected req q [] := by
    simp only [collected, hroom]
    cases req.countOnly <;> rfl
  rw [← listRevisionsByKeyRange_eq_scan, hskip, List.nil_append] at hscan
  simp [list, hend, hat, bind, Except.bind, hempty, hscan, pure, Except.pure]

/-- The `Kvs` of a range read without a limit are those of point reads exactly when every key in the
range has a record of its own. -/
theorem Coherent.list_iff (h : Coherent hist m log) (hend : req.rangeEnd = some rangeEnd)
    (hlimit : req.limit ≤ 0) (hcount : req.countOnly = false) (hat : m.readAt snapshot req = .ok q)
    (hq : q ≤ m.applied) :
    ∃ resp, m.list log snapshot req = .ok resp ∧
      (ListsExactly (req.key.getD []) rangeEnd (m.getKv log snapshot req) resp.kvs ↔
        ∀ k, InRange (req.key.getD []) rangeEnd k → isInternalKey k = false →
          OwnRecord m hist q k) := by
  refine ⟨_, h.fetches.list_eq hend hat, ?_⟩
  have hanswer := h.listsExactly_answered rangeEnd hcount hat hq
  -- Without a limit everything gets through.
  have hkvs : ∀ vals, (collected req q (page req.limit vals)).kvs =
      vals := by
    intro vals
    simp [collected, hcount, page_eq_self (Or.inl hlimit)]
  rw [hkvs]
  calc ListsExactly (req.key.getD []) rangeEnd (m.getKv log snapshot req) _
      ↔ _ = m.revisions.entries.flatMap fun e => answered m hist req rangeEnd q e.1 :=
        ⟨fun hlists => hlists.unique hanswer, fun heq => heq ▸ hanswer⟩
    _ ↔ ∀ e ∈ m.revisions.entries, listed log req rangeEnd q e.1 e.2.revisions =
          answered m hist req rangeEnd q e.1 := by
        exact flatMap_eq_flatMap_iff fun e he => (h.listed_iff hq (mem_entries.mp he)).1
    _ ↔ _ := by
        constructor
        · intro hall k hin hint w x hl hx
          cases hslot : m.revisions.slotOf k with
          | none =>
            simp [getLatestRevisionByKey, revisionsOf, hslot,
              latest] at hl
          | some slot =>
            have heq := hall (k, slot) (mem_entries.mpr hslot)
            exact ((h.listed_iff hq hslot).2.mp heq) hin hint w x hl hx
        · rintro hall ⟨k, slot⟩ he
          exact (h.listed_iff hq (mem_entries.mp he)).2.mpr (hall k)

end Coherent

end CloudEtcd
