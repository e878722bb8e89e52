/-
# CloudEtcd.System.Paging — what `More` and `Count` say, and following the pages.

`List` stops as soon as it has as many keys as the limit, and sets `More` without looking whether a key is
left; `Count` is the number of keys it has by then.  `Get` sets `More` for a limit of 1.  So `More` and
`Count` are right exactly if nothing was found or the limit was not reached (`more_and_count_iff`): at the
limit `More` announces a page that is empty, beyond it `Count` is too small.
-/
import CloudEtcd.System.Reads

namespace CloudEtcd

open History MemoryStorage

/-! ## What a response should say -/

/-- The keys that a range request asks for. -/
def RangeRequest.Asks (req : RangeRequest) (k : Bytes) : Prop :=
  match req.rangeEnd with
  | none => req.key = some k
  | some rangeEnd => InRange (req.key.getD []) rangeEnd k

/-- The keys that a request asks for and that are live and not internal, in ascending order. -/
structure LiveKeys (hist : LogHistory) (q : Nat) (req : RangeRequest) (all : List KeyValue) :
    Prop where
  ascending : all.Pairwise fun a b => a.key < b.key
  exact : ∀ kv, kv ∈ all ↔ ∃ k, req.Asks k ∧ isInternalKey k = false ∧
    (stateAt hist q k).map (viewKv req) = some kv

/-- A range operation of a transaction. -/
def MemoryStorage.range (m : MemoryStorage) (log : LogReader) (snapshot : Nat) (req : RangeRequest) :
    Except TxnError RangeResponse :=
  match req.rangeEnd with
  | none => m.get log snapshot req
  | some _ => m.list log snapshot req

theorem range_of_none {m : MemoryStorage} {log : LogReader} {snapshot : Nat} {req : RangeRequest}
    (hend : req.rangeEnd = none) : m.range log snapshot req = m.get log snapshot req := by
  rw [range, hend]

variable {rangeEnd : Bytes}

theorem range_of_some {m : MemoryStorage} {log : LogReader} {snapshot : Nat} {req : RangeRequest}
    (hend : req.rangeEnd = some rangeEnd) : m.range log snapshot req = m.list log snapshot req := by
  rw [range, hend]

/-- The request for the next page: from the last key that was returned, plus a NUL byte, at the same
revision. -/
def RangeRequest.next (req : RangeRequest) (q : Nat) (last : KeyValue) : RangeRequest :=
  { req with key := some (last.key ++ [0]), revision := q }

/-- Follow `More`, for at most `n` pages. -/
def MemoryStorage.followMore (m : MemoryStorage) (log : LogReader) (snapshot q : Nat) :
    Nat → RangeRequest → Option (List KeyValue)
  | 0, _ => none
  | n + 1, req =>
    match m.range log snapshot req with
    | .error _ => none
    | .ok resp =>
      if resp.more then
        resp.kvs.getLast?.bind fun last =>
          (m.followMore log snapshot q n (req.next q last)).map (resp.kvs ++ ·)
      else some resp.kvs

/-- The response tells the truth about the keys `all` that the request asks for. -/
structure Truthful (m : MemoryStorage) (log : LogReader) (snapshot q : Nat) (req : RangeRequest)
    (all : List KeyValue) (resp : RangeResponse) : Prop where
  kvs : resp.kvs = page req.limit all
  more : resp.more = true ↔ resp.kvs.length < all.length
  count : resp.count = all.length
  enumerates : ∃ n, m.followMore log snapshot q n req = some all
  next : resp.more = true → ∀ last next, resp.kvs.getLast? = some last →
    m.range log snapshot (req.next q last) = .ok next → next.kvs ≠ []

/-- Nothing is there to be counted, or the limit is not reached; and a `Get` is not of a live internal
key. -/
def BelowLimit (hist : LogHistory) (q : Nat) (req : RangeRequest) (n : Nat) : Prop :=
  (req.rangeEnd = none → ∀ k, req.key = some k → isInternalKey k = true →
    stateAt hist q k = none) ∧
  (n = 0 ∨ req.countOnly = false ∧ (req.limit ≤ 0 ∨ (n : Int) < req.limit))

/-! ## A listing of records of one event -/

section Coherent

variable {hist : LogHistory} {m : MemoryStorage} {log : LogReader} {snapshot q : Nat}
  {req : RangeRequest}

/-- A record of at most one event is the key's own. -/
theorem Coherent.ownRecord (h : Coherent hist m log) (hq : q ≤ m.applied)
    (hsingle : ∀ p ∈ hist, p.2.events.length ≤ 1) (k : Bytes) : OwnRecord m hist q k := by
  intro w x hl hx e he _
  obtain ⟨y, e', hy, -, hfind, -⟩ := h.record_of_latest hq hl
  obtain rfl := h.wellFormed.unique hx hy
  obtain ⟨he', hk⟩ := findEvent_eq_some hfind
  have hone := hsingle _ hx
  dsimp only at hone
  cases hevents : x.events with
  | nil =>
    rw [hevents] at he
    cases he
  | cons e'' rest =>
    have hrest : rest = [] := List.length_eq_zero_iff.mp (by simpa [hevents] using hone)
    rw [hevents, hrest] at he he'
    rw [← hk, List.mem_singleton.mp he, List.mem_singleton.mp he']

/-- The live keys of a range, and the page of them that `List` returns. -/
theorem Coherent.list_page (h : Coherent hist m log) (hc : m.compacted ≤ q) (hq : q ≤ m.applied)
    (hsingle : ∀ p ∈ hist, p.2.events.length ≤ 1)
    (hend : req.rangeEnd = some rangeEnd) (hat : m.readAt snapshot req = .ok q) :
    ∃ all, LiveKeys hist q req all ∧ m.list log snapshot req =
      .ok (collected req q (page req.limit all)) := by
  have hsame : m.revisions.entries.flatMap (fun e =>
      listed log req rangeEnd q e.1 e.2.revisions) =
      m.revisions.entries.flatMap fun e => answered m hist req rangeEnd q e.1 := by
    refine List.flatMap_congr fun e he => ?_
    exact (h.listed_iff hq (BPTree.mem_entries.mp he)).2.mpr fun _ _ => h.ownRecord hq hsingle e.1
  have hlists : ListsExactly (req.key.getD []) rangeEnd
      (fun k => (m.seen hist q k).map (viewKv req)) _ := h.listsExactly_seen rangeEnd
  refine ⟨_, ⟨hlists.ascending, fun kv => (hlists.exact kv).trans ?_⟩, by
    rw [h.fetches.list_eq hend hat, hsame]⟩
  have hasks : ∀ k, req.Asks k ↔ InRange (req.key.getD []) rangeEnd k := fun k => by
    rw [RangeRequest.Asks, hend]
  simp only [hasks, h.seen_eq_stateAt hc hq]

/-- There is only one list of them. -/
theorem LiveKeys.unique {all all' : List KeyValue} (h : LiveKeys hist q req all)
    (h' : LiveKeys hist q req all') : all = all' :=
  eq_of_ascending h.ascending h'.ascending fun kv => (h.exact kv).trans (h'.exact kv).symm

/-! ## `More` and `Count` -/

/-- A response that has all keys and does not set `More`. -/
theorem Truthful.of_all {all : List KeyValue} {resp : RangeResponse}
    (hrange : m.range log snapshot req = .ok resp) (hkvs : resp.kvs = all)
    (hpage : page req.limit all = all) (hmore : resp.more = false)
    (hcount : resp.count = all.length) : Truthful m log snapshot q req all resp where
  kvs := hkvs.trans hpage.symm
  more := by simp [hmore, hkvs]
  count := hcount
  enumerates := ⟨1, by simp [followMore, hrange, hmore, hkvs]⟩
  next hset := by simp [hmore] at hset

/-- The response of `List` is right exactly below the limit. -/
theorem truthful_list_iff (hend : req.rangeEnd = some rangeEnd) {all : List KeyValue}
    (hlist : m.list log snapshot req = .ok (collected req q (page req.limit all))) :
    Truthful m log snapshot q req all
        (collected req q (page req.limit all)) ↔
      BelowLimit hist q req all.length := by
  have hrange := (range_of_some hend).trans hlist
  constructor
  · intro h
    refine ⟨fun hnone => by simp [hend] at hnone, ?_⟩
    by_cases hzero : all.length = 0
    · exact Or.inl hzero
    · have hkvs := h.kvs
      have hcount : ((page req.limit all).length : Int) = all.length := h.count
      cases honly : req.countOnly with
      | true =>
        -- Then no key is returned, though there is one.
        have hnil : page req.limit all = [] := by
          rw [← hkvs]
          simp [collected, honly]
        rw [hnil, List.length_nil] at hcount
        omega
      | false =>
        refine Or.inr ⟨rfl, ?_⟩
        by_contra hlimit
        obtain ⟨hpos, hle⟩ := not_or.mp hlimit
        -- At the limit `More` is set, and no key is left.
        have hmore : (collected req q (page req.limit all)).more =
            true := decide_eq_true ⟨by omega, by omega⟩
        have hlt := h.more.mp hmore
        rw [hkvs] at hlt
        omega
  · rintro ⟨-, hn⟩
    have hall : page req.limit all = all := by
      refine page_eq_self ?_
      rcases hn with hzero | ⟨-, hlimit⟩
      · omega
      · omega
    have hfull : full req.limit all.length = false := by
      refine decide_eq_false ?_
      rcases hn with hzero | ⟨-, hlimit⟩
      · omega
      · omega
    refine Truthful.of_all hrange ?_ hall ?_ ?_
    · rw [hall]
      rcases hn with hzero | ⟨honly, -⟩
      · rw [List.length_eq_zero_iff.mp hzero]
        simp [collected]
      · simp [collected, honly]
    · rw [hall]
      exact hfull
    · rw [hall]
      rfl

/-- The live keys that a `Get` asks for. -/
theorem liveKeys_get {k : Bytes} (hkey : req.key = some k) (hend : req.rangeEnd = none) :
    LiveKeys hist q req (if isInternalKey k then []
      else ((stateAt hist q k).map (viewKv req)).toList) := by
  have hasks : ∀ k', req.Asks k' ↔ k = k' := fun k' => by
    rw [RangeRequest.Asks, hend]
    simp [hkey]
  refine ⟨?_, fun kv => ?_⟩
  · split
    · exact List.Pairwise.nil
    · cases (stateAt hist q k).map (viewKv req) <;> simp
  · simp only [hasks, exists_eq_left']
    cases hint : isInternalKey k <;> simp

/-- The response of `Get` is right exactly if its limit is not 1 and its key not internal. -/
theorem truthful_get_iff {k : Bytes} (hkey : req.key = some k) (hend : req.rangeEnd = none)
    (hcount : req.countOnly = false)
    (hget : m.get log snapshot req = .ok (getResponse req q (stateAt hist q k))) :
    Truthful m log snapshot q req (if isInternalKey k then []
        else ((stateAt hist q k).map (viewKv req)).toList)
        (getResponse req q (stateAt hist q k)) ↔
      BelowLimit hist q req (if isInternalKey k then []
        else ((stateAt hist q k).map (viewKv req)).toList).length := by
  have hrange := (range_of_none hend).trans hget
  cases hstate : stateAt hist q k with
  | none =>
    rw [hstate] at hrange
    have hnil : (if isInternalKey k then []
        else ((none : Option KeyValue).map (viewKv req)).toList) = [] := by
      cases isInternalKey k <;> rfl
    rw [hnil]
    refine iff_of_true (Truthful.of_all hrange rfl ?_ rfl rfl) ⟨fun _ k' hk' _ => ?_, Or.inl rfl⟩
    · exact page_eq_self (by simp; omega)
    · rw [hkey] at hk'
      cases hk'
      exact hstate
  | some kv =>
    rw [hstate] at hrange
    cases hint : isInternalKey k with
    | true =>
      -- An internal key is not one of the clients' keys, and is returned all the same.
      refine iff_of_false (fun h => ?_) fun h => ?_
      · have hcounted := h.count
        simp [getResponse] at hcounted
      · have hnone := h.1 hend k hkey hint
        rw [hstate] at hnone
        cases hnone
    | false =>
      have hpage : page req.limit [viewKv req kv] =
          [viewKv req kv] :=
        page_eq_self (by simp; omega)
      simp only [Bool.false_eq_true, if_false, Option.map_some, Option.toList_some]
      constructor
      · intro h
        refine ⟨fun _ k' hk' hint' => ?_, Or.inr ⟨hcount, ?_⟩⟩
        · rw [hkey] at hk'
          cases hk'
          rw [hint] at hint'
          cases hint'
        · have hmore := h.more
          simp only [getResponse, beq_iff_eq, List.length_singleton, lt_irrefl, iff_false]
            at hmore
          simp only [List.length_singleton, Nat.cast_one]
          omega
      · rintro ⟨-, hn⟩
        refine Truthful.of_all hrange rfl hpage ?_ rfl
        simp only [List.length_singleton, Nat.cast_one, one_ne_zero, false_or] at hn
        simp only [getResponse, beq_eq_false_iff_ne]
        omega

end Coherent

/-- In every reachable state with a history of single-key transactions, at every readable revision: the
response of a `Get` or `List` returns the first keys up to the limit, sets `More` exactly if keys are left,
counts all keys and leads on to no empty page, exactly if there are no keys or the limit is not reached
(and a `Get` is not of a live internal key). -/
theorem more_and_count_iff {env : LeaseEnv} {log : FilesystemLog} {sys₀ sys : System}
    (hlog : log.Opened) (hstart : System.start env log = .ok sys₀)
    (hreach : System.Reached sys₀ sys) (hsingle : ∀ p ∈ sys.store.history, p.2.events.length ≤ 1)
    {s q : Nat} {req : RangeRequest} (hs : s ≤ sys.store.mem.applied)
    (hat : sys.store.mem.readAt s req = .ok q) (hq : sys.store.mem.compacted ≤ q)
    (hform : req.rangeEnd = none → req.key ≠ none ∧ req.countOnly = false) :
    ∃ resp all, sys.store.mem.range sys.store.log.read s req = .ok resp ∧
      LiveKeys sys.store.history q req all ∧
      (Truthful sys.store.mem sys.store.log.read s q req all resp ↔
        BelowLimit sys.store.history q req all.length) := by
  have hco := (hreach.inv hlog hstart).store.coherent
  have happlied := (readAt_le hat).trans hs
  cases hend : req.rangeEnd with
  | none =>
    obtain ⟨hkey, hcount⟩ := hform hend
    obtain ⟨k, hkey⟩ := Option.ne_none_iff_exists'.mp hkey
    have hget := hco.get_eq hkey hend hcount hat happlied
    rw [hco.seen_eq_stateAt hq happlied] at hget
    exact ⟨_, _, (range_of_none hend).trans hget, liveKeys_get hkey hend,
      truthful_get_iff hkey hend hcount hget⟩
  | some rangeEnd =>
    obtain ⟨all, hall, hlist⟩ := hco.list_page hq happlied hsingle hend hat
    exact ⟨_, all, (range_of_some hend).trans hlist, hall, truthful_list_iff hend hlist⟩

/-- All keys from 1 on, one at a time. -/
def listOne : RangeRequest := { listAll with limit := 1 }

/-- One key, and a limit of one: the response announces a second page, and that page is empty. -/
theorem more_announces_empty_page : ∃ sys resp last next,
    System.runFresh noLeases ⟨0, 0⟩ (System.callAlone 0 (putOne 1)) = some sys ∧
    sys.store.mem.range sys.store.log.read 2 listOne = .ok resp ∧ resp.more = true ∧
    resp.kvs = [last] ∧
    sys.store.mem.range sys.store.log.read 2 (listOne.next 2 last) = .ok next ∧ next.kvs = [] ∧
    ∀ all, ¬ Truthful sys.store.mem sys.store.log.read 2 2 listOne all resp := by
  obtain ⟨sys, hsys, resp, hresp, hmore, last, hlast, hkvs, next, hnext, hempty⟩ :
      ∃ sys, System.runFresh noLeases ⟨0, 0⟩ (System.callAlone 0 (putOne 1)) = some sys ∧
      ∃ resp, sys.store.mem.range sys.store.log.read 2 listOne = .ok resp ∧ resp.more = true ∧
      ∃ last, resp.kvs.head? = some last ∧ resp.kvs = [last] ∧
      ∃ next, sys.store.mem.range sys.store.log.read 2 (listOne.next 2 last) = .ok next ∧
        next.kvs = [] := by
    decide +kernel
  refine ⟨sys, resp, last, next, hsys, hresp, hmore, hkvs, hnext, hempty, fun all htrue => ?_⟩
  exact htrue.next hmore last next (by rw [hkvs]; rfl) hnext hempty

/-- Two keys and a limit of three. -/
theorem more_and_count_below : ∃ sys resp all,
    System.runFresh noLeases ⟨0, 0⟩ (System.callAlone 0 (putOne 1) ++
      System.callAlone 1 { success := [.put { key := [2] }] }) = some sys ∧
    sys.store.mem.range sys.store.log.read 3 { listAll with limit := 3 } = .ok resp ∧
    LiveKeys sys.store.history 3 { listAll with limit := 3 } all ∧
    (Truthful sys.store.mem sys.store.log.read 3 3 { listAll with limit := 3 } all resp ↔
      BelowLimit sys.store.history 3 { listAll with limit := 3 } all.length) := by
  obtain ⟨sys, hsys, happlied, hcompacted, hsingle⟩ :
      ∃ sys, System.runFresh noLeases ⟨0, 0⟩ (System.callAlone 0 (putOne 1) ++
        System.callAlone 1 { success := [.put { key := [2] }] }) = some sys ∧
        sys.store.mem.applied = 3 ∧ sys.store.mem.compacted = 0 ∧
        ∀ p ∈ sys.store.history, p.2.events.length ≤ 1 := by
    decide +kernel
  have honce : ∀ a ∈ System.callAlone 0 (putOne 1) ++
      System.callAlone 1 { success := [.put { key := [2] }] }, a.WritesOnce := by
    decide +kernel
  obtain ⟨log, sys₀, hlog, hstart, hreach⟩ := System.reached_of_runFresh honce hsys
  have hat : sys.store.mem.readAt 3 { listAll with limit := 3 } = .ok 3 := rfl
  obtain ⟨resp, all, hresp⟩ := more_and_count_iff hlog hstart hreach hsingle
    (Nat.le_of_eq happlied.symm) hat (by omega) (by simp [listAll])
  exact ⟨sys, resp, all, hsys, hresp⟩

end CloudEtcd
