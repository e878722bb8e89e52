/-
# CloudEtcd.Persistence.Validation — what `prepare` guarantees about the transactions it accepts.

`Commits` relates the position and the shared `committedWrites` map to the list of transactions
accepted since the start: their revisions are contiguous, the map holds the last writer of every
key, and no accepted transaction wrote what a later accepted one had read before it.  The body of
the loop in `prepare` keeps it (`prepareTxn_commits`), so a batch does (`prepare_commits`) and so
does every step of the batcher (`Batcher.Inv.step`).

A transaction with a range read is validated against the position at the start of its batch only.
`flush_rangeReaders_iff` says exactly when that position is still the head of the log where the
range reader is accepted.
-/
import CloudEtcd.Persistence.Batch

namespace CloudEtcd

variable {a : Nat × PendingTxn}

/-- The transaction's write set has the key. -/
def PendingTxn.Writes (t : PendingTxn) (k : Bytes) : Prop := k ∈ t.txnMeta.writeSet.keys

/-- A transaction accepted at `r` wrote the key. -/
def WrittenAt (accepted : List (Nat × PendingTxn)) (k : Bytes) (r : Nat) : Prop :=
  ∃ t, (r, t) ∈ accepted ∧ t.Writes k

/-- The earlier transaction wrote nothing that the later one, without a range read, had read or
writes itself, after the later one looked. -/
def PointSafe (earlier later : Nat × PendingTxn) : Prop :=
  later.2.txnMeta.hasRangeRead = false →
    (∀ k v, later.2.txnMeta.readSet.lookup k = some v → earlier.2.Writes k → earlier.1 ≤ v) ∧
    ∀ k, later.2.Writes k → earlier.2.Writes k →
      earlier.1 ≤ later.2.txnMeta.snapshotRevision

/-- What the accepted transactions have to do with the position and `committedWrites`. -/
structure Commits (p0 position : Nat) (committedWrites : GoMap Bytes Nat)
    (accepted : List (Nat × PendingTxn)) : Prop where
  revisions : accepted.map Prod.fst = List.range' (p0 + 1) accepted.length
  position_eq : position = p0 + accepted.length
  lastWrite : ∀ k r, committedWrites.lookup k = some r ↔
    WrittenAt accepted k r ∧ ∀ r', WrittenAt accepted k r' → r' ≤ r
  pointSafe : accepted.Pairwise PointSafe

/-! ## Validation -/

theorem validateTxn_range {m : TxnMeta} (h : m.hasRangeRead = true) (position : Nat)
    (cw : GoMap Bytes Nat) : validateTxn m position cw = true ↔ m.snapshotRevision = position := by
  simp [validateTxn, h]

/-- Reading `committedWrites` with its zero value: no later write is known. -/
theorem getD_le_iff (cw : GoMap Bytes Nat) (k : Bytes) (v : Nat) :
    cw.getD k 0 ≤ v ↔ ∀ r, cw.lookup k = some r → r ≤ v := by
  cases h : cw.lookup k <;> simp [GoMap.getD, h]

theorem validateTxn_point {m : TxnMeta} (h : m.hasRangeRead = false) (position : Nat)
    (cw : GoMap Bytes Nat) :
    validateTxn m position cw = true ↔
      (∀ k v, m.readSet.lookup k = some v → cw.getD k 0 ≤ v) ∧
      ∀ k ∈ m.writeSet.keys, cw.getD k 0 ≤ m.snapshotRevision := by
  simp only [validateTxn, h, Bool.false_eq_true, if_false, Bool.and_eq_true, List.all_eq_true,
    Bool.not_eq_true', decide_eq_false_iff_not, not_lt, gt_iff_lt]
  constructor
  · rintro ⟨hr, hw⟩
    exact ⟨fun k v hkv => hr ⟨k, v⟩ (AList.mem_lookup_iff.mp hkv), hw⟩
  · rintro ⟨hr, hw⟩
    exact ⟨fun e he => hr e.1 e.2 (AList.mem_lookup_iff.mpr he), hw⟩

/-! ## The loop of `prepare` -/

variable {p : Prepared}

section Commits

variable {p0 position : Nat} {cw : GoMap Bytes Nat}
  {accepted : List (Nat × PendingTxn)}

theorem Commits.start (p0 : Nat) : Commits p0 p0 ∅ [] where
  revisions := rfl
  position_eq := rfl
  lastWrite k r := by simp [WrittenAt]
  pointSafe := List.Pairwise.nil

/-- The accepted revisions are those above the start and up to the position. -/
theorem Commits.bounds (h : Commits p0 position cw accepted) {t : Nat × PendingTxn}
    (ht : t ∈ accepted) : p0 < t.1 ∧ t.1 ≤ position := by
  have hmem : t.1 ∈ List.range' (p0 + 1) accepted.length :=
    h.revisions ▸ List.mem_map_of_mem ht
  rw [List.mem_range'_1] at hmem
  have := h.position_eq
  omega

/-- No two accepted transactions have one revision. -/
theorem Commits.eq_of_revision (h : Commits p0 position cw accepted) {t u : Nat × PendingTxn}
    (ht : t ∈ accepted) (hu : u ∈ accepted) (heq : t.1 = u.1) : t = u := by
  have hnodup : (accepted.map Prod.fst).Nodup := by
    rw [h.revisions]
    exact List.nodup_range'
  exact List.inj_on_of_nodup_map hnodup ht hu heq

theorem writtenAt_append_singleton {k : Bytes} {r n : Nat} {t : PendingTxn} :
    WrittenAt (accepted ++ [(n, t)]) k r ↔ WrittenAt accepted k r ∨ r = n ∧ t.Writes k := by
  unfold WrittenAt
  constructor
  · rintro ⟨u, hu, hk⟩
    rcases List.mem_append.mp hu with hu | hu
    · exact Or.inl ⟨u, hu, hk⟩
    · obtain ⟨rfl, rfl⟩ : r = n ∧ u = t := by simpa using hu
      exact Or.inr ⟨rfl, hk⟩
  · rintro (⟨u, hu, hk⟩ | ⟨rfl, hk⟩)
    · exact ⟨u, List.mem_append_left _ hu, hk⟩
    · exact ⟨t, by simp, hk⟩

/-- A write that was accepted is bounded by what `committedWrites` shows for the key. -/
theorem Commits.le_getD (h : Commits p0 position cw accepted) {k : Bytes} {r v : Nat}
    (hw : WrittenAt accepted k r) (hv : cw.getD k 0 ≤ v) : r ≤ v := by
  -- Some accepted write on the key is the last one, and the map holds it.
  have hlast : ∃ m, WrittenAt accepted k m ∧ ∀ r', WrittenAt accepted k r' → r' ≤ m := by
    have hbound : ∀ r', WrittenAt accepted k r' → r' ≤ position := by
      rintro r' ⟨t, ht, -⟩
      exact (h.bounds ht).2
    classical
    exact ⟨Nat.findGreatest (WrittenAt accepted k) position,
      Nat.findGreatest_spec (hbound r hw) hw,
      fun r' hr' => Nat.le_findGreatest (hbound r' hr') hr'⟩
  obtain ⟨m, hm, hle⟩ := hlast
  exact (hle r hw).trans ((getD_le_iff cw k v).mp hv m ((h.lastWrite k m).mpr ⟨hm, hle⟩))

/-- After a transaction is accepted at the next revision, the map has it as the last writer of its
keys. -/
theorem Commits.lastWrite_accept (h : Commits p0 position cw accepted) (t : PendingTxn) (k : Bytes)
    (r : Nat) :
    (cw.setAll t.txnMeta.writeSet.keys (position + 1)).lookup k = some r ↔
      WrittenAt (accepted ++ [(position + 1, t)]) k r ∧
        ∀ r', WrittenAt (accepted ++ [(position + 1, t)]) k r' → r' ≤ r := by
  have hbelow : ∀ r', WrittenAt accepted k r' → r' ≤ position := by
    rintro r' ⟨u, hu, -⟩
    exact (h.bounds hu).2
  rw [GoMap.lookup_setAll]
  simp only [writtenAt_append_singleton]
  by_cases hk : k ∈ t.txnMeta.writeSet.keys
  · have hwrites : t.Writes k := hk
    rw [if_pos hk]
    constructor
    · intro hr
      cases hr
      refine ⟨Or.inr ⟨rfl, hwrites⟩, ?_⟩
      rintro r' (hr' | ⟨rfl, -⟩)
      · exact (hbelow r' hr').trans (Nat.le_succ _)
      · exact le_rfl
    · rintro ⟨hr, hle⟩
      have hge := hle (position + 1) (Or.inr ⟨rfl, hwrites⟩)
      rcases hr with hr | ⟨rfl, -⟩
      · have := hbelow r hr
        omega
      · rfl
  · have hnot : ¬ t.Writes k := hk
    rw [if_neg hk, h.lastWrite]
    simp [hnot]

/-- Accepting one validated transaction at the next revision. -/
theorem Commits.accept (h : Commits p0 position cw accepted) {t : PendingTxn}
    (hsafe : t.txnMeta.hasRangeRead = false →
      (∀ k v, t.txnMeta.readSet.lookup k = some v → cw.getD k 0 ≤ v) ∧
      ∀ k ∈ t.txnMeta.writeSet.keys, cw.getD k 0 ≤ t.txnMeta.snapshotRevision) :
    Commits p0 (position + 1) (cw.setAll t.txnMeta.writeSet.keys (position + 1))
      (accepted ++ [(position + 1, t)]) where
  revisions := by
    have := h.position_eq
    simp only [List.map_append, h.revisions, List.map_cons, List.map_nil, List.length_append,
      List.length_singleton, List.range'_concat]
    simp
    omega
  position_eq := by
    have := h.position_eq
    simp
    omega
  lastWrite := h.lastWrite_accept t
  pointSafe := by
    refine List.pairwise_append.mpr ⟨h.pointSafe, List.pairwise_singleton _ _, ?_⟩
    rintro ⟨r, u⟩ hu later hlater hpoint
    obtain rfl : later = (position + 1, t) := by simpa using hlater
    obtain ⟨hreads, hwrites⟩ := hsafe hpoint
    exact ⟨fun k v hkv huk => h.le_getD ⟨u, hu, huk⟩ (hreads k v hkv),
      fun k htk huk => h.le_getD ⟨u, hu, huk⟩ (hwrites k htk)⟩

/-- One iteration of the loop keeps `Commits`, whatever position the range readers are compared
with. -/
theorem prepareTxn_commits (start : Nat) (txn : PendingTxn)
    (h : Commits p0 p.revision p.committedWrites (accepted ++ p.transactions)) :
    Commits p0 (prepareTxn start p txn).revision (prepareTxn start p txn).committedWrites
      (accepted ++ (prepareTxn start p txn).transactions) := by
  unfold prepareTxn
  split
  · next hv =>
    rw [← List.append_assoc]
    exact h.accept (t := { txn with logRecord := restamp (p.revision + 1) txn.logRecord })
      fun hpoint => (validateTxn_point hpoint start _).mp hv
  · exact h

theorem foldl_prepareTxn_commits (start : Nat) (txns : List PendingTxn)
    (h : Commits p0 p.revision p.committedWrites (accepted ++ p.transactions)) :
    let q := txns.foldl (prepareTxn start) p
    Commits p0 q.revision q.committedWrites (accepted ++ q.transactions) := by
  induction txns generalizing p with
  | nil => exact h
  | cons txn txns ih => exact ih (prepareTxn_commits start txn h)

/-- A batch keeps `Commits`. -/
theorem prepare_commits (b : TxnBatch) (h : Commits p0 position cw accepted) :
    let p := (b.prepare position cw).2
    Commits p0 p.revision p.committedWrites (accepted ++ p.transactions) := by
  have hstart : Commits p0 position cw (accepted ++ []) := by
    rw [List.append_nil]
    exact h
  unfold TxnBatch.prepare
  dsimp only
  split
  · exact hstart
  · exact foldl_prepareTxn_commits position b.pendingBatch (p := ⟨position, [], [], cw⟩) hstart

end Commits

/-! ## Where an accepted transaction comes from -/

variable {txns : List PendingTxn}

/-- A transaction accepted by the loop stood somewhere in the list, was valid against the map as the
transactions before it left it, and got the next revision. -/
theorem mem_foldl_prepareTxn {start : Nat} :
    a ∈ (txns.foldl (prepareTxn start) p).transactions ↔
      a ∈ p.transactions ∨ ∃ pre t post, txns = pre ++ t :: post ∧
        let q := pre.foldl (prepareTxn start) p
        validateTxn t.txnMeta start q.committedWrites = true ∧
          a = (q.revision + 1, { t with logRecord := restamp (q.revision + 1) t.logRecord }) := by
  induction txns generalizing p with
  | nil => simp
  | cons txn txns ih =>
    rw [List.foldl_cons, ih]
    have hhead : a ∈ (prepareTxn start p txn).transactions ↔ a ∈ p.transactions ∨
        (validateTxn txn.txnMeta start p.committedWrites = true ∧ a = (p.revision + 1,
          { txn with logRecord := restamp (p.revision + 1) txn.logRecord })) := by
      unfold prepareTxn
      split
      · next hv => simp [hv]
      · next hv => simp [hv]
    rw [hhead, or_assoc]
    refine or_congr Iff.rfl ⟨?_, ?_⟩
    · rintro (⟨hv, ha⟩ | ⟨pre, t, post, rfl, hv, ha⟩)
      · exact ⟨[], txn, txns, rfl, hv, ha⟩
      · exact ⟨txn :: pre, t, post, rfl, hv, ha⟩
    · rintro ⟨pre, t, post, hsplit, hv, ha⟩
      cases pre with
      | nil =>
        obtain ⟨rfl, rfl⟩ : txn = t ∧ txns = post := by simpa using hsplit
        exact Or.inl ⟨hv, ha⟩
      | cons x pre =>
        obtain ⟨rfl, rfl⟩ : txn = x ∧ txns = pre ++ t :: post := by simpa using hsplit
        exact Or.inr ⟨pre, t, post, rfl, hv, ha⟩

variable {cw : GoMap Bytes Nat} {position : Nat}

/-- A transaction that a batch commits is one of its transactions, re-stamped. -/
theorem mem_prepare_transactions {b : TxnBatch} (ha : a ∈ (b.prepare position cw).2.transactions) :
    ∃ t ∈ b.pendingBatch, a.2 = { t with logRecord := restamp a.1 t.logRecord } := by
  unfold TxnBatch.prepare at ha
  dsimp only at ha
  split at ha
  · simp at ha
  · rcases mem_foldl_prepareTxn.mp ha with ha | ⟨pre, t, post, hsplit, -, rfl⟩
    · simp at ha
    · exact ⟨t, by simp [hsplit], rfl⟩

theorem le_revision_foldl (start : Nat) (txns : List PendingTxn) (p : Prepared) :
    p.revision ≤ (txns.foldl (prepareTxn start) p).revision := by
  induction txns generalizing p with
  | nil => exact le_rfl
  | cons txn txns ih =>
    refine le_trans ?_ (ih (prepareTxn start p txn))
    unfold prepareTxn
    split <;> simp

/-- The loop gives out no revision exactly when it accepts nothing, and then the map it validates
against is the one it started with. -/
theorem revision_foldl_eq_iff (start : Nat) (txns : List PendingTxn) (p : Prepared) :
    (txns.foldl (prepareTxn start) p).revision = p.revision ↔
      ∀ u ∈ txns, validateTxn u.txnMeta start p.committedWrites = false := by
  induction txns generalizing p with
  | nil => simp
  | cons txn txns ih =>
    rw [List.foldl_cons, List.forall_mem_cons]
    by_cases hv : validateTxn txn.txnMeta start p.committedWrites = true
    · have hstep : p.revision + 1 ≤ (txns.foldl (prepareTxn start)
          (prepareTxn start p txn)).revision := by
        have := le_revision_foldl start txns (prepareTxn start p txn)
        simpa [prepareTxn, hv] using this
      constructor
      · intro h
        omega
      · intro h
        simp [hv] at h
    · have hp : prepareTxn start p txn =
          { p with rejected := p.rejected ++ [txn.resultChan] } := by
        simp [prepareTxn, hv]
      have hfalse : validateTxn txn.txnMeta start p.committedWrites = false := by
        simpa using hv
      rw [hp, ih, and_iff_right hfalse]

/-! ## Range readers inside a batch -/

/-- Everything accepted before a range reader is at or below its snapshot, or shares its batch. -/
def RangeSafe (earlier later : Nat × PendingTxn) : Prop :=
  later.2.txnMeta.hasRangeRead = true →
    earlier.1 ≤ later.2.txnMeta.snapshotRevision ∨
      canBatchTogether earlier.2.txnMeta later.2.txnMeta = true

/-- The transactions of a batch were admitted one after another by `canBatchWith`. -/
def TxnBatch.Admitted (b : TxnBatch) : Prop :=
  b.pendingBatch.Pairwise fun t u => canBatchTogether t.txnMeta u.txnMeta = true

variable {accepted : List (Nat × PendingTxn)}

theorem foldl_prepareTxn_rangeSafe {start : Nat} (hold : ∀ a ∈ accepted, a.1 ≤ start)
    (hadm : txns.Pairwise fun t u => canBatchTogether t.txnMeta u.txnMeta = true)
    (hp : ∀ a ∈ p.transactions, ∀ u ∈ txns, canBatchTogether a.2.txnMeta u.txnMeta = true)
    (h : (accepted ++ p.transactions).Pairwise RangeSafe) :
    (accepted ++ (txns.foldl (prepareTxn start) p).transactions).Pairwise RangeSafe := by
  induction txns generalizing p with
  | nil => exact h
  | cons txn txns ih =>
    obtain ⟨htxn, hadm⟩ := List.pairwise_cons.mp hadm
    rw [List.foldl_cons]
    by_cases hv : validateTxn txn.txnMeta start p.committedWrites = true
    · refine ih hadm ?_ ?_
      · intro a ha u hu
        simp only [prepareTxn, hv, if_true, List.mem_append, List.mem_singleton] at ha
        rcases ha with ha | rfl
        · exact hp a ha u (List.mem_cons_of_mem _ hu)
        · exact htxn u hu
      · simp only [prepareTxn, hv, if_true, ← List.append_assoc]
        refine List.pairwise_append.mpr ⟨h, List.pairwise_singleton _ _, ?_⟩
        intro a ha later hlater hrange
        rw [List.mem_singleton] at hlater
        subst hlater
        rcases List.mem_append.mp ha with ha | ha
        · exact Or.inl ((hold a ha).trans_eq ((validateTxn_range hrange start _).mp hv).symm)
        · exact Or.inr (hp a ha txn List.mem_cons_self)
    · simp only [prepareTxn, hv]
      exact ih hadm (fun a ha u hu => hp a ha u (List.mem_cons_of_mem _ hu)) h

/-- A batch keeps `RangeSafe`. -/
theorem prepare_rangeSafe {b : TxnBatch} (hold : ∀ a ∈ accepted, a.1 ≤ position) (hadm : b.Admitted)
    (h : accepted.Pairwise RangeSafe) :
    (accepted ++ (b.prepare position cw).2.transactions).Pairwise RangeSafe := by
  unfold TxnBatch.prepare
  dsimp only
  split
  · simpa using h
  · exact foldl_prepareTxn_rangeSafe (p := ⟨position, [], [], cw⟩) hold hadm (by simp)
      (by simpa using h)

/-- Every valid range reader of the batch stands behind transactions that are all rejected: no
transaction before it is valid against the writes committed before the batch. -/
def Flush.RangeReadersLead (f : Flush) : Prop :=
  ∀ pre t post, f.batch.pendingBatch = pre ++ t :: post → t.txnMeta.hasRangeRead = true →
    t.txnMeta.snapshotRevision = f.lastLogPosition →
    ∀ u ∈ pre, validateTxn u.txnMeta f.lastLogPosition f.committedWrites = false

/-- The flush accepted what `prepare` accepts, on a batch prepared for the first time. -/
structure Flush.Faithful (f : Flush) : Prop where
  fresh : f.batch.flushed = false
  accepted_eq :
    f.accepted = (f.batch.prepare f.lastLogPosition f.committedWrites).2.transactions

/-- Where the accepted transactions of a flush come from. -/
theorem Flush.Faithful.mem_accepted {f : Flush} (h : f.Faithful) :
    a ∈ f.accepted ↔ ∃ pre t post, f.batch.pendingBatch = pre ++ t :: post ∧
      let q := pre.foldl (prepareTxn f.lastLogPosition)
        ⟨f.lastLogPosition, [], [], f.committedWrites⟩
      validateTxn t.txnMeta f.lastLogPosition q.committedWrites = true ∧
        a = (q.revision + 1, { t with logRecord := restamp (q.revision + 1) t.logRecord }) := by
  rw [h.accepted_eq, TxnBatch.prepare, h.fresh, Bool.false_or]
  split
  · next hempty =>
    rw [List.isEmpty_iff] at hempty
    simp [hempty]
  · rw [mem_foldl_prepareTxn]
    simp

/-- Inside one flush, the range readers are accepted right above their snapshots exactly when they
lead. -/
theorem flush_rangeReaders_iff {f : Flush} (h : f.Faithful) :
    (∀ a ∈ f.accepted, a.2.txnMeta.hasRangeRead = true →
      a.1 = a.2.txnMeta.snapshotRevision + 1) ↔ f.RangeReadersLead := by
  set s : Prepared := ⟨f.lastLogPosition, [], [], f.committedWrites⟩ with hs
  constructor
  · intro hall pre t post hsplit hrange hsnap
    set q := pre.foldl (prepareTxn f.lastLogPosition) s with hq
    have hvalid : validateTxn t.txnMeta f.lastLogPosition q.committedWrites = true :=
      (validateTxn_range hrange _ _).mpr hsnap
    have hrev : q.revision + 1 = t.txnMeta.snapshotRevision + 1 :=
      hall _ (h.mem_accepted.mpr ⟨pre, t, post, hsplit, hvalid, rfl⟩) hrange
    have hunmoved : q.revision = s.revision := by
      have : s.revision = f.lastLogPosition := rfl
      omega
    exact (revision_foldl_eq_iff _ pre s).mp hunmoved
  · intro hlead a ha hrange
    obtain ⟨pre, t, post, hsplit, hvalid, rfl⟩ := h.mem_accepted.mp ha
    have hsnap := (validateTxn_range hrange _ _).mp hvalid
    have hunmoved := (revision_foldl_eq_iff f.lastLogPosition pre s).mpr
      (hlead pre t post hsplit hrange hsnap)
    rw [hunmoved]
    exact congrArg (· + 1) hsnap.symm

/-! ## Batches one after another -/

/-- Pass the batches through `prepare` in order, with one `committedWrites` map that starts empty at
`p0`; the outcome collects the accepted transactions of all of them. -/
def prepareAll (p0 : Nat) (batches : List TxnBatch) : Prepared :=
  batches.foldl
    (fun p b =>
      let q := (b.prepare p.revision p.committedWrites).2
      { revision := p.revision + q.transactions.length
        transactions := p.transactions ++ q.transactions
        rejected := p.rejected ++ q.rejected
        committedWrites := q.committedWrites })
    ⟨p0, [], [], ∅⟩

/-- The position after a batch is the last revision it gave out. -/
theorem prepare_commits_position {p0 : Nat}
    (b : TxnBatch) (h : Commits p0 position cw accepted) :
    let p := (b.prepare position cw).2
    Commits p0 (position + p.transactions.length) p.committedWrites
      (accepted ++ p.transactions) := by
  intro p
  have hp : Commits p0 p.revision p.committedWrites (accepted ++ p.transactions) :=
    prepare_commits b h
  have hrev : p.revision = position + p.transactions.length := by
    rw [hp.position_eq, h.position_eq, List.length_append, Nat.add_assoc]
  rw [← hrev]
  exact hp

theorem prepareAll_commits (p0 : Nat) (batches : List TxnBatch) :
    let p := prepareAll p0 batches
    Commits p0 p.revision p.committedWrites p.transactions := by
  induction batches using List.reverseRecOn with
  | nil => exact Commits.start p0
  | append_singleton batches b ih =>
    have hb := prepare_commits_position b ih
    simpa only [prepareAll, List.foldl_append, List.foldl_cons, List.foldl_nil] using hb

/-- Revisions grow along the accepted list, so `Pairwise` facts hold of any two by revision. -/
theorem Commits.pairwise {p0 : Nat} (h : Commits p0 position cw accepted)
    {R : Nat × PendingTxn → Nat × PendingTxn → Prop} (hR : accepted.Pairwise R)
    {b : Nat × PendingTxn} (ha : a ∈ accepted) (hb : b ∈ accepted) (hlt : a.1 < b.1) : R a b := by
  have hasc : accepted.Pairwise fun a b => a.1 < b.1 := by
    have : (accepted.map Prod.fst).Pairwise (· < ·) := by
      rw [h.revisions]
      exact List.pairwise_lt_range'
    exact List.pairwise_map.mp this
  obtain ⟨i, hi, rfl⟩ := List.getElem_of_mem ha
  obtain ⟨j, hj, rfl⟩ := List.getElem_of_mem hb
  -- The positions of the two are in the order of their revisions.
  rcases Nat.lt_trichotomy i j with hij | rfl | hji
  · exact List.pairwise_iff_getElem.mp hR i j hi hj hij
  · exact absurd hlt (lt_irrefl _)
  · exact absurd (List.pairwise_iff_getElem.mp hasc j i hj hi hji) (by omega)

/-- Backward validation is sound for transactions without a range read: between what such a
transaction saw of a key (for a key it read, the revision it recorded; for a key it writes, its
snapshot) and its own revision, no accepted transaction wrote that key.  After every batch the
shared map holds the last accepted revision that wrote each key. -/
theorem prepareAll_backward_validation (p0 : Nat) (batches : List TxnBatch) :
    let p := prepareAll p0 batches
    (∀ a ∈ p.transactions, a.2.txnMeta.hasRangeRead = false →
      (∀ k v, a.2.txnMeta.readSet.lookup k = some v → ∀ a' ∈ p.transactions,
        v < a'.1 → a'.1 < a.1 → k ∉ a'.2.txnMeta.writeSet.keys) ∧
      ∀ k ∈ a.2.txnMeta.writeSet.keys, ∀ a' ∈ p.transactions,
        a.2.txnMeta.snapshotRevision < a'.1 → a'.1 < a.1 → k ∉ a'.2.txnMeta.writeSet.keys) ∧
    ∀ k r, p.committedWrites.lookup k = some r ↔
      (∃ a ∈ p.transactions, a.1 = r ∧ k ∈ a.2.txnMeta.writeSet.keys) ∧
      ∀ a ∈ p.transactions, k ∈ a.2.txnMeta.writeSet.keys → a.1 ≤ r := by
  intro p
  have h : Commits p0 p.revision p.committedWrites p.transactions := prepareAll_commits p0 batches
  refine ⟨fun a ha hpoint => ⟨?_, ?_⟩, ?_⟩
  · intro k v hkv a' ha' hv hlt hk
    have hsafe := h.pairwise h.pointSafe ha' ha hlt hpoint
    exact absurd (hsafe.1 k v hkv hk) (by omega)
  · intro k hka a' ha' hv hlt hk
    have hsafe := h.pairwise h.pointSafe ha' ha hlt hpoint
    exact absurd (hsafe.2 k hka hk) (by omega)
  · intro k r
    rw [h.lastWrite]
    simp only [WrittenAt, PendingTxn.Writes, Prod.exists, Prod.forall]
    constructor
    · rintro ⟨⟨t, ht, hk⟩, hle⟩
      exact ⟨⟨r, t, ht, rfl, hk⟩, fun r' t' ht' hk' => hle r' ⟨t', ht', hk'⟩⟩
    · rintro ⟨⟨_, t, ht, rfl, hk⟩, hle⟩
      exact ⟨⟨t, ht, hk⟩, fun r' ⟨t', ht', hk'⟩ => hle r' t' ht' hk'⟩

/-- Two batches: a write of one key; then a stale reader of that key, rejected, and a fresh reader,
accepted. -/
theorem prepareAll_backward_validation_two :
    let write : PendingTxn := ⟨⟨[]⟩, (TxnMeta.new 0).addWrite [97], 0⟩
    let stale : PendingTxn := ⟨⟨[]⟩, ((TxnMeta.new 0).addRead [97] 0).addWrite [98], 1⟩
    let fresh : PendingTxn := ⟨⟨[]⟩, ((TxnMeta.new 1).addRead [97] 1).addWrite [98], 2⟩
    let p := prepareAll 0 [⟨false, [write]⟩, ⟨false, [stale, fresh]⟩]
    p.transactions.map Prod.fst = [1, 2] ∧ p.rejected = [1] ∧
      ∀ r, p.committedWrites.lookup [97] = some r →
        ∀ a ∈ p.transactions, [97] ∈ a.2.txnMeta.writeSet.keys → a.1 ≤ r := by
  intro write stale fresh p
  refine ⟨by decide, by decide, fun r hr => ?_⟩
  exact (((prepareAll_backward_validation 0 _).2 [97] r).mp hr).2

/-! ## Runs of the batcher -/

namespace Batcher

variable {b b' : Batcher}
variable {commit : List (Nat × PendingTxn)} {p0 : Nat}

/-- An `Add` call puts its transaction at the end of the last waiting batch or in a new one. -/
theorem batches_add (b : Batcher) (logRecord : LogRecord) (txnMeta : TxnMeta) :
    let txn : PendingTxn := ⟨logRecord, txnMeta, b.added⟩
    (∃ bs batch, b.batches = bs ++ [batch] ∧ batch.canBatchWith txnMeta = true ∧
      (b.add logRecord txnMeta).batches = bs ++ [batch.add txn]) ∨
    (b.add logRecord txnMeta).batches = b.batches ++ [⟨false, [txn]⟩] := by
  intro txn
  cases hopen : b.openBatch with
  | none =>
    right
    simp [add, batches, inHand, hopen, txn]
  | some batch =>
    by_cases hcan : batch.canBatchWith txnMeta = true
    · left
      refine ⟨b.inHand ++ b.flushQueue, batch, ?_, hcan, ?_⟩
      · simp [batches, hopen]
      · simp [add, batches, inHand, hopen, hcan, txn]
    · right
      simp [add, batches, inHand, hopen, hcan, txn]

theorem add_frame (b : Batcher) (logRecord : LogRecord) (txnMeta : TxnMeta) :
    (b.add logRecord txnMeta).lastLogPosition = b.lastLogPosition ∧
    (b.add logRecord txnMeta).committedWrites = b.committedWrites ∧
    (b.add logRecord txnMeta).flushes = b.flushes ∧
    (b.add logRecord txnMeta).flusher = b.flusher ∧
    (b.add logRecord txnMeta).results = b.results ∧
    (b.add logRecord txnMeta).added = b.added + 1 := by
  unfold add
  split
  · split <;> exact ⟨rfl, rfl, rfl, rfl, rfl, rfl⟩
  · exact ⟨rfl, rfl, rfl, rfl, rfl, rfl⟩

/-- Taking a batch, or leaving, changes neither what is waiting nor what is committed. -/
theorem pick_frame (h : b.pick = some b') :
    b'.batches = b.batches ∧ b'.lastLogPosition = b.lastLogPosition ∧
    b'.committedWrites = b.committedWrites ∧ b'.flushes = b.flushes ∧
    b'.results = b.results ∧ b'.added = b.added := by
  unfold pick at h
  split at h
  · next batch queue hf hq =>
    cases h
    simp [batches, inHand, hf, hq]
  · next batch hf hq ho =>
    cases h
    simp [batches, inHand, hf, hq, ho]
  · next hf hq ho =>
    split at h
    · cases h
      simp [batches, inHand, hf, hq, ho]
    · cases h
  · cases h

theorem deliver_frame (h : b.deliver = some b') :
    b'.batches = b.batches ∧ b'.lastLogPosition = b.lastLogPosition ∧
    b'.committedWrites = b.committedWrites ∧ b'.flushes = b.flushes ∧ b'.added = b.added := by
  unfold deliver at h
  split at h
  · next hf =>
    cases h
    simp [batches, inHand, hf]
  · cases h

/-- What a flush does: it prepares the batch in hand, the oldest one waiting. -/
theorem flush_spec (h : b.flush = some (b', commit)) :
    ∃ batch, b.batches = batch :: b'.batches ∧
      commit = (batch.prepare b.lastLogPosition b.committedWrites).2.transactions ∧
      b'.lastLogPosition = b.lastLogPosition + commit.length ∧
      b'.committedWrites = (batch.prepare b.lastLogPosition b.committedWrites).2.committedWrites ∧
      b'.flushes = b.flushes ++ [⟨batch, b.lastLogPosition, b.committedWrites, commit⟩] ∧
      b'.flusher = .delivering
        (resultsOf (batch.prepare b.lastLogPosition b.committedWrites).2) ∧
      b'.results = b.results ∧ b'.added = b.added := by
  unfold flush at h
  split at h
  · next batch hf =>
    cases h
    exact ⟨batch, by simp [batches, inHand, hf], rfl, rfl, rfl, rfl, rfl, rfl, rfl⟩
  · cases h

/-- The invariant of the batcher. -/
structure Inv (p0 : Nat) (b : Batcher) : Prop where
  commits : Commits p0 b.lastLogPosition b.committedWrites b.accepted
  rangeSafe : b.accepted.Pairwise RangeSafe
  waiting : ∀ batch ∈ b.batches, batch.flushed = false ∧ batch.Admitted
  faithful : ∀ f ∈ b.flushes, f.Faithful

theorem Inv.new (p0 : Nat) : Inv p0 (new p0) where
  commits := Commits.start p0
  rangeSafe := List.Pairwise.nil
  waiting := by simp [batches, inHand, Batcher.new]
  faithful := by simp [Batcher.new]

theorem accepted_eq (h : b'.flushes = b.flushes) : b'.accepted = b.accepted := by
  rw [accepted, accepted, h]

/-- A step that commits nothing needs to look at the waiting batches only. -/
theorem Inv.of_frame (h : Inv p0 b) (hp : b'.lastLogPosition = b.lastLogPosition)
    (hc : b'.committedWrites = b.committedWrites) (hf : b'.flushes = b.flushes)
    (hw : ∀ batch ∈ b'.batches, batch.flushed = false ∧ batch.Admitted) : Inv p0 b' where
  commits := by
    rw [hp, hc, accepted_eq hf]
    exact h.commits
  rangeSafe := accepted_eq hf ▸ h.rangeSafe
  waiting := hw
  faithful := hf ▸ h.faithful

theorem Admitted.add {batch : TxnBatch} (h : batch.Admitted) {txn : PendingTxn}
    (hcan : batch.canBatchWith txn.txnMeta = true) : (batch.add txn).Admitted := by
  refine List.pairwise_append.mpr ⟨h, List.pairwise_singleton _ _, ?_⟩
  intro t ht u hu
  obtain rfl : u = txn := by simpa using hu
  exact List.all_eq_true.mp hcan t ht

theorem Inv.add (h : Inv p0 b) (logRecord : LogRecord) (txnMeta : TxnMeta) :
    Inv p0 (b.add logRecord txnMeta) := by
  obtain ⟨hp, hc, hf, -⟩ := add_frame b logRecord txnMeta
  apply h.of_frame hp hc hf
  intro batch hbatch
  rcases batches_add b logRecord txnMeta with ⟨bs, last, hb, hcan, hb'⟩ | hb'
  · rw [hb'] at hbatch
    rcases List.mem_append.mp hbatch with hm | hm
    · exact h.waiting batch (hb ▸ List.mem_append_left _ hm)
    · obtain rfl : batch = _ := List.mem_singleton.mp hm
      obtain ⟨hflushed, hadm⟩ := h.waiting last (by simp [hb])
      exact ⟨hflushed, Admitted.add hadm hcan⟩
  · rw [hb'] at hbatch
    rcases List.mem_append.mp hbatch with hm | hm
    · exact h.waiting batch hm
    · obtain rfl : batch = _ := List.mem_singleton.mp hm
      exact ⟨rfl, List.pairwise_singleton _ _⟩

theorem Inv.pick (h : Inv p0 b) (hstep : b.pick = some b') : Inv p0 b' := by
  obtain ⟨hb, hp, hc, hf, -⟩ := pick_frame hstep
  exact h.of_frame hp hc hf (hb ▸ h.waiting)

theorem Inv.deliver (h : Inv p0 b) (hstep : b.deliver = some b') : Inv p0 b' := by
  obtain ⟨hb, hp, hc, hf, -⟩ := deliver_frame hstep
  exact h.of_frame hp hc hf (hb ▸ h.waiting)

theorem Inv.close (h : Inv p0 b) : Inv p0 b.close :=
  h.of_frame rfl rfl rfl h.waiting

theorem flush_accepted (h : b.flush = some (b', commit)) : b'.accepted = b.accepted ++ commit := by
  obtain ⟨batch, -, -, -, -, hf, -⟩ := flush_spec h
  rw [accepted, accepted, hf, List.flatMap_append, List.flatMap_singleton]

theorem Inv.flush (h : Inv p0 b) (hstep : b.flush = some (b', commit)) : Inv p0 b' := by
  have hacc := flush_accepted hstep
  obtain ⟨batch, hb, hcommit, hp, hc, hf, -⟩ := flush_spec hstep
  have hwait : batch.flushed = false ∧ batch.Admitted := h.waiting batch (by simp [hb])
  constructor
  · rw [hacc, hp, hc, hcommit]
    exact prepare_commits_position batch h.commits
  · rw [hacc, hcommit]
    exact prepare_rangeSafe (fun a ha => (h.commits.bounds ha).2) hwait.2 h.rangeSafe
  · intro x hx
    exact h.waiting x (by simp [hb, hx])
  · intro f hfmem
    rw [hf] at hfmem
    rcases List.mem_append.mp hfmem with hm | hm
    · exact h.faithful f hm
    · obtain rfl : f = _ := List.mem_singleton.mp hm
      exact ⟨hwait.1, hcommit⟩

/-- What a flush accepts gets the next revisions. -/
theorem Inv.flush_revisions (h : Inv p0 b) (hstep : b.flush = some (b', commit)) :
    commit.map Prod.fst = List.range' (b.lastLogPosition + 1) commit.length := by
  have hall := (h.flush hstep).commits.revisions
  rw [flush_accepted hstep, List.map_append, List.length_append, ← List.range'_append_1,
    h.commits.revisions] at hall
  rw [List.append_cancel_left hall, h.commits.position_eq]
  congr 1
  omega

theorem Inv.step (b : Batcher) (a : Action) (b' : Batcher) (h : Inv p0 b)
    (hstep : b.step a = some b') : Inv p0 b' := by
  cases a with
  | add logRecord txnMeta =>
    cases hstep
    exact h.add logRecord txnMeta
  | pick => exact h.pick hstep
  | flush =>
    obtain ⟨⟨b'', commit⟩, hflush, rfl⟩ := Option.map_eq_some_iff.mp hstep
    exact h.flush hflush
  | deliver => exact h.deliver hstep
  | close =>
    cases hstep
    exact h.close

/-- In every run, the transactions with a range read commit right above their snapshots, with
nothing committed in between, exactly when in every flush the valid range readers stand behind
rejected transactions only. -/
theorem rangeReaders_commit_unmoved_iff {p0 : Nat} {actions : List Action}
    (hrun : Transition.run step (new p0) actions = some b) :
    (∀ a ∈ b.accepted, a.2.txnMeta.hasRangeRead = true →
      a.1 = a.2.txnMeta.snapshotRevision + 1 ∧
      ∀ a' ∈ b.accepted, ¬ (a.2.txnMeta.snapshotRevision < a'.1 ∧ a'.1 < a.1)) ↔
    ∀ f ∈ b.flushes, f.RangeReadersLead := by
  have hinv : Inv p0 b := Transition.run_invariant Inv.step hrun (Inv.new p0)
  constructor
  · intro hall f hf
    apply (flush_rangeReaders_iff (hinv.faithful f hf)).mp
    intro a ha hrange
    exact (hall a (List.mem_flatMap.mpr ⟨f, hf, ha⟩) hrange).1
  · intro hlead a ha hrange
    obtain ⟨f, hf, haf⟩ := List.mem_flatMap.mp ha
    have hnext := (flush_rangeReaders_iff (hinv.faithful f hf)).mpr (hlead f hf) a haf hrange
    refine ⟨hnext, fun a' _ hbetween => ?_⟩
    omega

/-- A put of one key, and a transaction that only lists, both at snapshot 0. -/
def putThenList : List Action :=
  [.add ⟨[⟨.put, { key := [97] }, none⟩]⟩ ((TxnMeta.new 0).addWrite [97]),
    .add ⟨[⟨.put, { key := [98] }, none⟩]⟩ (((TxnMeta.new 0).addList).addWrite [98]),
    .pick, .flush]

/-- The second transaction of the batch has a range read at snapshot 0 and is accepted at
revision 2, above the put at revision 1. -/
theorem putThenList_phantom : ∃ b, Transition.run step (new 0) putThenList = some b ∧
    ∃ a ∈ b.accepted, a.2.txnMeta.hasRangeRead = true ∧
      a.1 ≠ a.2.txnMeta.snapshotRevision + 1 := by
  refine ⟨_, rfl, (2, _), List.mem_cons_of_mem _ List.mem_cons_self, rfl, ?_⟩
  decide

/-- The same two transactions, the listing one first. -/
def listThenPut : List Action :=
  [.add ⟨[⟨.put, { key := [98] }, none⟩]⟩ (((TxnMeta.new 0).addList).addWrite [98]),
    .add ⟨[⟨.put, { key := [97] }, none⟩]⟩ ((TxnMeta.new 0).addWrite [97]),
    .pick, .flush]

/-- With the listing transaction first, both commit and the range reader sees an unmoved log. -/
theorem listThenPut_unmoved :
    ∃ b, Transition.run step (new 0) listThenPut = some b ∧
      b.accepted.map Prod.fst = [1, 2] ∧ ∀ f ∈ b.flushes, f.RangeReadersLead := by
  obtain ⟨b, hb⟩ : ∃ b, Transition.run step (new 0) listThenPut = some b := ⟨_, rfl⟩
  refine ⟨b, hb, ?_, (rangeReaders_commit_unmoved_iff hb).mp ?_⟩
  · cases hb
    rfl
  · intro a ha hrange
    cases hb
    rcases List.mem_cons.mp ha with rfl | ha
    · refine ⟨rfl, fun a' _ hbetween => ?_⟩
      change 0 < a'.1 ∧ a'.1 < 1 at hbetween
      omega
    · obtain rfl := List.mem_singleton.mp ha
      cases hrange

end Batcher

end CloudEtcd
