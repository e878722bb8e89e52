/-
# CloudEtcd.Persistence.LogFiles — the files tile the revisions, and a lookup finds its record.

`FilesystemLog.WF` says that the closed files and the active one cover the revisions from 1 to the
head without gap or overlap, each holding records of its own range in ascending order.  Under it
the backwards search of `findFile` followed by `position` finds exactly the records the files hold
(`fileEntry_eq_ok`), and rotation, commit and the swap of a compacted group keep it and change the
held records as they should.
-/
import CloudEtcd.Persistence.FilesystemLog

namespace CloudEtcd

variable {want next : Nat} {fs : List LogFile}

/-- Records in strictly ascending order of revision. -/
def Ascending (rs : List (Nat × LogRecord)) : Prop := rs.Pairwise fun r r' => r.1 < r'.1

variable {rs : List (Nat × LogRecord)}

theorem Ascending.unique (h : Ascending rs) {r : Nat}
    {x y : LogRecord} (hx : (r, x) ∈ rs) (hy : (r, y) ∈ rs) : x = y := by
  have hinj := (List.pairwise_map.mpr h : (rs.map Prod.fst).Pairwise (· < ·)).imp Nat.ne_of_lt
  have := List.inj_on_of_nodup_map hinj hx hy rfl
  exact congrArg Prod.snd this

/-! ## One file -/

namespace LogFile

variable {f : LogFile} {r : Nat} {x : LogRecord}

/-- The file's records lie in its range, in order; a dense file has all of them. -/
structure WF (f : LogFile) : Prop where
  ascending : Ascending f.records
  bounds : ∀ r ∈ f.records, f.first ≤ r.1 ∧ r.1 ≤ f.last
  dense : f.sparse = false →
    f.records.map Prod.fst = List.range' f.first f.count ∧ f.last + 1 = f.first + f.count

/-- `find?` for the first record not below a revision, in an ascending list. -/
theorem find_eq_some_of_mem (h : Ascending rs)
    {r : Nat × LogRecord} (hr : r ∈ rs) : rs.find? (fun x => r.1 ≤ x.1) = some r := by
  obtain ⟨pre, post, rfl⟩ := List.append_of_mem hr
  rw [List.find?_append, List.find?_eq_none.mpr]
  · simp
  · intro x hx
    have hlt : x.1 < r.1 :=
      (List.pairwise_append.mp h).2.2 x hx r List.mem_cons_self
    simpa using hlt

/-- Record `i` of a dense file has revision `first + i`. -/
theorem WF.revision_at (h : f.WF) (hs : f.sparse = false) {i : Nat} (hi : i < f.records.length) :
    f.records[i].1 = f.first + i := by
  have hmap : (f.records.map Prod.fst)[i]? = some (f.first + i) := by
    rw [(h.dense hs).1, LogFile.count, List.getElem?_range' hi, Nat.one_mul]
  simpa [List.getElem?_eq_getElem hi] using hmap

/-- The binary search in a sparse file. -/
theorem entry_sparse (h : f.WF) (hs : f.sparse = true) :
    f.entry r = .ok x ↔ (r, x) ∈ f.records := by
  unfold entry
  simp only [hs, if_true]
  constructor
  · intro he
    split at he
    · next y hy =>
      split at he
      · next hyr =>
        cases he
        have hmem := List.mem_of_find?_eq_some hy
        rw [← hyr]
        exact hmem
      · cases he
    · cases he
  · intro hmem
    rw [find_eq_some_of_mem h.ascending hmem]
    simp

/-- The position in a dense file. -/
theorem entry_dense (h : f.WF) (hs : f.sparse = false) (hr : f.first ≤ r) :
    f.entry r = .ok x ↔ (r, x) ∈ f.records := by
  unfold entry
  simp only [hs, Bool.false_eq_true, if_false]
  constructor
  · intro he
    split at he
    · next y hy =>
      cases he
      obtain ⟨hi, rfl⟩ := List.getElem?_eq_some_iff.mp hy
      have hrev : f.records[r - f.first].1 = r := by
        have := h.revision_at hs hi
        omega
      have hmem := List.getElem_mem hi
      rwa [show f.records[r - f.first] = (r, f.records[r - f.first].2) from
        Prod.ext hrev rfl] at hmem
    · cases he
  · intro hmem
    obtain ⟨i, hi, heq⟩ := List.getElem_of_mem hmem
    have hir : f.first + i = r := by
      rw [← h.revision_at hs hi, heq]
    rw [show r - f.first = i by omega, List.getElem?_eq_getElem hi, heq]

/-- A lookup in the file's range finds exactly the records the file holds. -/
theorem entry_eq_ok (h : f.WF) (hr : f.first ≤ r) : f.entry r = .ok x ↔ (r, x) ∈ f.records := by
  cases hs : f.sparse with
  | true => exact entry_sparse h hs
  | false => exact entry_dense h hs hr

end LogFile

/-! ## A row of files -/

/-- The files cover the revisions from `want` up to, not including, `next`. -/
def Tiled : Nat → List LogFile → Nat → Prop
  | want, [], next => want = next
  | want, f :: fs, next => f.first = want ∧ f.first ≤ f.last ∧ f.WF ∧ Tiled (f.last + 1) fs next

theorem tiled_append {gs : List LogFile} :
    Tiled want (fs ++ gs) next ↔ ∃ mid, Tiled want fs mid ∧ Tiled mid gs next := by
  induction fs generalizing want with
  | nil => simp [Tiled]
  | cons f fs ih =>
    simp only [List.cons_append, Tiled, ih]
    constructor
    · rintro ⟨h1, h2, h3, mid, h4, h5⟩
      exact ⟨mid, ⟨h1, h2, h3, h4⟩, h5⟩
    · rintro ⟨mid, ⟨h1, h2, h3, h4⟩, h5⟩
      exact ⟨h1, h2, h3, mid, h4, h5⟩

theorem Tiled.le (h : Tiled want fs next) : want ≤ next := by
  induction fs generalizing want with
  | nil => exact Nat.le_of_eq h
  | cons f fs ih =>
    obtain ⟨h1, h2, -, h4⟩ := h
    have := ih h4
    omega

variable {f : LogFile}

/-- A file of the row is well formed and lies in the covered range. -/
theorem Tiled.of_mem (h : Tiled want fs next) (hf : f ∈ fs) :
    f.WF ∧ want ≤ f.first ∧ f.first ≤ f.last ∧ f.last < next := by
  obtain ⟨pre, post, rfl⟩ := List.append_of_mem hf
  obtain ⟨mid, hpre, hrest⟩ := tiled_append.mp h
  obtain ⟨h1, h2, h3, h4⟩ := hrest
  have := hpre.le
  have := h4.le
  exact ⟨h3, by omega, h2, by omega⟩

/-- The records of the row lie in the covered range. -/
theorem Tiled.record_bounds (h : Tiled want fs next) {r : Nat × LogRecord}
    (hr : r ∈ fs.flatMap LogFile.records) : want ≤ r.1 ∧ r.1 < next := by
  obtain ⟨f, hf, hrf⟩ := List.mem_flatMap.mp hr
  obtain ⟨hwf, h1, -, h3⟩ := h.of_mem hf
  have := hwf.bounds r hrf
  omega

/-- The records of the row are in ascending order. -/
theorem Tiled.ascending (h : Tiled want fs next) : Ascending (fs.flatMap LogFile.records) := by
  induction fs generalizing want with
  | nil => exact List.Pairwise.nil
  | cons f fs ih =>
    obtain ⟨-, -, hwf, hrest⟩ := h
    rw [List.flatMap_cons]
    refine List.pairwise_append.mpr ⟨hwf.ascending, ih hrest, ?_⟩
    intro r hr r' hr'
    have h1 := (hwf.bounds r hr).2
    have h2 := (hrest.record_bounds hr').1
    omega

/-! ## The log -/

namespace FilesystemLog

/-- The closed files and the active one tile the revisions up to the head. -/
structure WF (l : FilesystemLog) : Prop where
  closed : Tiled 1 l.closed l.active.first
  active : l.active.WF
  dense : l.active.sparse = false
  last : l.active.last = l.lastRevision

variable {l : FilesystemLog}
variable {r next want : Nat} {x : LogRecord} {hist kept : List (Nat × LogRecord)}
  {group pre post : List LogFile}

theorem WF.active_first (h : l.WF) : l.active.first ≤ l.lastRevision + 1 := by
  obtain ⟨-, hlast⟩ := h.active.dense h.dense
  have := h.last
  omega

theorem records_eq (l : FilesystemLog) :
    l.records = l.closed.flatMap LogFile.records ++ l.active.records := by
  simp [records, files]

theorem WF.ascending (h : l.WF) : Ascending l.records := by
  rw [records_eq]
  refine List.pairwise_append.mpr ⟨h.closed.ascending, h.active.ascending, ?_⟩
  intro r hr r' hr'
  have h1 := (h.closed.record_bounds hr).2
  have h2 := (h.active.bounds r' hr').1
  omega

theorem WF.record_bounds (h : l.WF) {r : Nat × LogRecord} (hr : r ∈ l.records) :
    1 ≤ r.1 ∧ r.1 ≤ l.lastRevision := by
  rw [records_eq] at hr
  have hlast := h.last
  have hfirst := h.active_first
  have hone := h.closed.le
  rcases List.mem_append.mp hr with hr | hr
  · have := h.closed.record_bounds hr
    omega
  · have := h.active.bounds r hr
    omega

theorem WF.split {pre group post : List LogFile} (h : l.WF) (hclosed : l.closed = pre ++ group ++ post) :
    ∃ a b, Tiled 1 pre a ∧ Tiled a group b ∧ Tiled b post l.active.first := by
  obtain ⟨b, hleft, hpost⟩ := tiled_append.mp (hclosed ▸ h.closed)
  obtain ⟨a, hpre, hgroup⟩ := tiled_append.mp hleft
  exact ⟨a, b, hpre, hgroup, hpost⟩

theorem WF.records_eq_nil (h : l.WF) (hzero : l.lastRevision = 0) : l.records = [] := by
  refine List.eq_nil_iff_forall_not_mem.mpr fun r hr => ?_
  have := h.record_bounds hr
  omega

/-- The backwards search stops at the file whose range can hold the revision. -/
theorem find_file (h : Tiled want fs next) (hf : f ∈ fs) (h1 : f.first ≤ r) (h2 : r ≤ f.last) :
    fs.reverse.find? (fun f => f.first ≤ r) = some f := by
  obtain ⟨pre, post, rfl⟩ := List.append_of_mem hf
  obtain ⟨mid, -, -, -, -, hpost⟩ := tiled_append.mp h
  have hnone : post.reverse.find? (fun f => f.first ≤ r) = none := by
    rw [List.find?_eq_none]
    intro g hg
    have := (hpost.of_mem (List.mem_reverse.mp hg)).2.1
    simpa using (by omega : r < g.first)
  simp [List.find?_append, hnone, h1]

/-- The same among all files. -/
theorem WF.find_files (h : l.WF) (hf : f ∈ l.files) (h1 : f.first ≤ r)
    (h2 : r ≤ f.last) : l.files.reverse.find? (fun f => f.first ≤ r) = some f := by
  rw [files, List.reverse_append, List.find?_append]
  rcases List.mem_append.mp hf with hc | ha
  · have hlt := (h.closed.of_mem hc).2.2.2
    have hnot : ¬ l.active.first ≤ r := by omega
    simp [hnot, find_file h.closed hc h1 h2]
  · obtain rfl := List.mem_singleton.mp ha
    simp [h1]

/-- `findFile` and `position` find exactly the records the files hold. -/
theorem fileEntry_eq_ok (h : l.WF) : l.fileEntry r = .ok x ↔ (r, x) ∈ l.records := by
  have hfiles : ∀ f ∈ l.files, f.WF := by
    intro f hf
    rcases List.mem_append.mp hf with hf | hf
    · exact (h.closed.of_mem hf).1
    · obtain rfl := List.mem_singleton.mp hf
      exact h.active
  constructor
  · intro he
    unfold fileEntry at he
    split at he
    · next f hfind =>
      split at he
      · have hmem : f ∈ l.files := List.mem_reverse.mp (List.mem_of_find?_eq_some hfind)
        have hfirst : f.first ≤ r := by simpa using List.find?_some hfind
        exact List.mem_flatMap.mpr ⟨f, hmem, (LogFile.entry_eq_ok (hfiles f hmem) hfirst).mp he⟩
      · cases he
    · cases he
  · intro hmem
    obtain ⟨f, hf, hrec⟩ := List.mem_flatMap.mp hmem
    obtain ⟨h1, h2⟩ := (hfiles f hf).bounds _ hrec
    unfold fileEntry
    rw [h.find_files hf h1 h2]
    simp only [h2, if_true]
    exact (LogFile.entry_eq_ok (hfiles f hf) h1).mpr hrec

/-! ## Reading through the cache -/

/-- Every cached record is one of the given history. -/
def CacheIn (l : FilesystemLog) (hist : List (Nat × LogRecord)) : Prop :=
  ∀ it ∈ l.cache.ll, (it.revision, it.record) ∈ hist

/-- `GetLogEntry` changes nothing but the cache. -/
theorem getLogEntry_frame (l : FilesystemLog) (r : Nat) :
    ∃ cache, (l.getLogEntry r).1 = { l with cache := cache } := by
  unfold getLogEntry
  split
  · exact ⟨_, rfl⟩
  · split
    · exact ⟨_, rfl⟩
    · split <;> exact ⟨_, rfl⟩

/-- What `GetLogEntry` returns is in the history, if the files and the cache are. -/
theorem read_mem (h : l.WF) (hc : l.CacheIn hist) (hsub : ∀ x ∈ l.records, x ∈ hist)
    (hread : l.read r = .ok x) : (r, x) ∈ hist := by
  unfold read getLogEntry at hread
  split at hread
  · next cache record hget =>
    cases hread
    obtain ⟨it, hit, hrev, hrec⟩ := (l.cache.get_spec r).2 x (by rw [hget])
    have := hc it hit
    rwa [hrev, hrec] at this
  · next cache hget =>
    split at hread
    · cases hread
    · next record hfile =>
      have heq : record = x := by
        split at hread <;> simpa using hread
      exact hsub _ ((fileEntry_eq_ok h).mp (heq ▸ hfile))

/-- A record that the files hold is returned, cached or not. -/
theorem read_of_mem (h : l.WF) (hc : l.CacheIn hist) (hsub : ∀ x ∈ l.records, x ∈ hist)
    (hasc : Ascending hist) (hx : (r, x) ∈ l.records) : l.read r = .ok x := by
  have hok : ∃ y, l.read r = .ok y := by
    unfold read getLogEntry
    split
    · exact ⟨_, rfl⟩
    · rw [(fileEntry_eq_ok h).mpr hx]
      dsimp only
      split <;> exact ⟨x, rfl⟩
  obtain ⟨y, hy⟩ := hok
  rw [hy, hasc.unique (read_mem h hc hsub hy) (hsub _ hx)]

/-- `GetLogEntry` keeps the cache in the history. -/
theorem cacheIn_getLogEntry (h : l.WF) (hc : l.CacheIn hist) (hsub : ∀ x ∈ l.records, x ∈ hist)
    (r : Nat) : (l.getLogEntry r).1.CacheIn hist := by
  have hkeep : ∀ it ∈ (l.cache.get r).1.ll, (it.revision, it.record) ∈ hist := fun it hit =>
    hc it ((l.cache.get_spec r).1 it hit)
  unfold getLogEntry
  split
  · next cache record hget =>
    rw [hget] at hkeep
    exact hkeep
  · next cache hget =>
    rw [hget] at hkeep
    split
    · exact hkeep
    · next record hfile =>
      split
      · intro it hit
        rcases RecordCache.mem_put hit with hit | ⟨hrev, hrec⟩
        · exact hkeep it hit
        · rw [hrev, hrec]
          exact hsub _ ((fileEntry_eq_ok h).mp hfile)
      · exact hkeep

/-! ## Rotation and commit -/

theorem wf_newActiveFile (n : Nat) : (newActiveFile n).WF where
  ascending := List.Pairwise.nil
  bounds := by simp [newActiveFile]
  dense := by simp [newActiveFile, LogFile.count]

theorem wf_rotate (h : l.WF) : l.rotate.WF := by
  unfold rotate
  split
  · exact h
  · next hcount =>
    obtain ⟨-, hlast⟩ := h.active.dense h.dense
    refine ⟨tiled_append.mpr ⟨l.active.first, h.closed, rfl, ?_, h.active, ?_⟩,
      wf_newActiveFile _, rfl, rfl⟩
    · omega
    · have := h.last
      simp only [Tiled, newActiveFile]
      omega

theorem rotate_frame (l : FilesystemLog) :
    l.rotate.records = l.records ∧ l.rotate.lastRevision = l.lastRevision ∧
    l.rotate.cache = l.cache ∧ l.rotate.opts = l.opts := by
  unfold rotate
  split
  · exact ⟨rfl, rfl, rfl, rfl⟩
  · refine ⟨?_, rfl, rfl, rfl⟩
    simp [records, files, newActiveFile]

/-- Rotation only adds to the closed files. -/
theorem rotate_closed (l : FilesystemLog) : ∃ fs, l.rotate.closed = l.closed ++ fs := by
  unfold rotate
  split
  · exact ⟨[], by simp⟩
  · exact ⟨[l.active], rfl⟩

theorem map_fst_numberFrom (first : Nat) (batch : List LogRecord) :
    (numberFrom first batch).map Prod.fst = List.range' first batch.length := by
  induction batch generalizing first with
  | nil => rfl
  | cons x xs ih => simp [numberFrom, ih, List.range'_succ]

theorem length_numberFrom (first : Nat) (batch : List LogRecord) :
    (numberFrom first batch).length = batch.length := by
  simpa using congrArg List.length (map_fst_numberFrom first batch)

theorem ascending_of_map_fst {first n : Nat}
    (h : rs.map Prod.fst = List.range' first n) : Ascending rs := by
  apply List.pairwise_map.mp
  rw [h]
  exact List.pairwise_lt_range'

theorem mem_foldl_put {c : RecordCache} {it : RecordCache.Item} (rs : List (Nat × LogRecord))
    (h : it ∈ (rs.foldl (fun c r => c.put r.1 r.2) c).ll) :
    it ∈ c.ll ∨ (it.revision, it.record) ∈ rs := by
  induction rs generalizing c with
  | nil => exact Or.inl h
  | cons r rs ih =>
    rcases ih h with h | h
    · rcases RecordCache.mem_put h with h | ⟨hrev, hrec⟩
      · exact Or.inl h
      · exact Or.inr (by simp [hrev, hrec])
    · exact Or.inr (List.mem_cons_of_mem _ h)

/-- The log with a batch appended to its active file, before any rotation. -/
def published (l : FilesystemLog) (batch : List LogRecord) : FilesystemLog :=
  let new := numberFrom (l.lastRevision + 1) batch
  { l with
    active := { l.active with
      records := l.active.records ++ new
      size := l.active.size + LogCodec.appendedSize new
      last := l.lastRevision + batch.length }
    lastRevision := l.lastRevision + batch.length
    cache := new.foldl (fun c r => c.put r.1 r.2) l.cache }

variable {batch : List LogRecord}

/-- A successful commit publishes its batch and may rotate. -/
theorem commitBatch_eq_ok {position : Nat} {l' : FilesystemLog}
    (hcommit : l.commitBatch position batch = .ok l') :
    position = l.lastRevision ∧ (l' = l.published batch ∨ l' = (l.published batch).rotate) := by
  unfold commitBatch at hcommit
  split at hcommit
  · cases hcommit
  · split at hcommit
    · cases hcommit
    · next hpos =>
      refine ⟨not_not.mp hpos, ?_⟩
      dsimp only at hcommit
      split at hcommit
      · exact Or.inr (Except.ok.inj hcommit).symm
      · exact Or.inl (Except.ok.inj hcommit).symm

theorem records_published (l : FilesystemLog) (batch : List LogRecord) :
    (l.published batch).records = l.records ++ numberFrom (l.lastRevision + 1) batch := by
  rw [records_eq, records_eq, List.append_assoc]
  rfl

/-- The active file stays dense when the next revisions are appended. -/
theorem wf_published (h : l.WF) (batch : List LogRecord) : (l.published batch).WF := by
  obtain ⟨hrev, hlast⟩ := h.active.dense h.dense
  have hhead := h.last
  set new := numberFrom (l.lastRevision + 1) batch with hnew
  have hcount : (l.active.records ++ new).length = l.active.count + batch.length := by
    rw [List.length_append, hnew, length_numberFrom]
    rfl
  have hmap : (l.active.records ++ new).map Prod.fst =
      List.range' l.active.first (l.active.records ++ new).length := by
    rw [hcount, List.map_append, hrev, hnew, map_fst_numberFrom, ← List.range'_append_1]
    congr 2
    omega
  refine ⟨h.closed, ⟨ascending_of_map_fst hmap, ?_, fun _ => ⟨hmap, ?_⟩⟩, h.dense, rfl⟩
  · intro r hr
    have hmem : r.1 ∈ List.range' l.active.first (l.active.records ++ new).length :=
      hmap ▸ List.mem_map_of_mem hr
    rw [List.mem_range'_1, hcount] at hmem
    show l.active.first ≤ r.1 ∧ r.1 ≤ l.lastRevision + batch.length
    omega
  · show l.lastRevision + batch.length + 1 = l.active.first + (l.active.records ++ new).length
    omega

/-- What a successful commit does. -/
theorem commitBatch_spec {position : Nat} {l' : FilesystemLog}
    (h : l.WF) (hcommit : l.commitBatch position batch = .ok l') :
    position = l.lastRevision ∧ l'.WF ∧
    l'.records = l.records ++ numberFrom (l.lastRevision + 1) batch ∧
    l'.lastRevision = l.lastRevision + batch.length ∧
    (∀ it ∈ l'.cache.ll, it ∈ l.cache.ll ∨
      (it.revision, it.record) ∈ numberFrom (l.lastRevision + 1) batch) ∧
    (∃ fs, l'.closed = l.closed ++ fs) ∧ l'.opts = l.opts := by
  have hwf := wf_published h batch
  have hrecords := records_published l batch
  have hcache : ∀ it ∈ (l.published batch).cache.ll, it ∈ l.cache.ll ∨
      (it.revision, it.record) ∈ numberFrom (l.lastRevision + 1) batch :=
    fun it hit => mem_foldl_put _ hit
  obtain ⟨hpos, rfl | rfl⟩ := commitBatch_eq_ok hcommit
  · exact ⟨hpos, hwf, hrecords, rfl, hcache, ⟨[], (List.append_nil _).symm⟩, rfl⟩
  · obtain ⟨hr, hl, hca, ho⟩ := rotate_frame (l.published batch)
    exact ⟨hpos, wf_rotate hwf, hr.trans hrecords, hl, hca ▸ hcache,
      rotate_closed (l.published batch), ho⟩

/-! ## The swap of a compacted group -/

theorem Tiled.last_getLast (h : Tiled want fs next) (hne : fs ≠ []) :
    ∃ f, fs.getLast? = some f ∧ f.last + 1 = next := by
  obtain ⟨pre, f, rfl⟩ := (List.eq_nil_or_concat' fs).resolve_left hne
  obtain ⟨mid, -, -, -, -, hlast⟩ := tiled_append.mp h
  exact ⟨f, by simp, hlast⟩

/-- The file written for a group covers the group's range. -/
theorem tiled_compactedFile (h : Tiled want group next) (hne : group ≠ [])
    (hsub : kept.Sublist (group.flatMap LogFile.records)) :
    Tiled want [compactedFile group kept] next := by
  obtain ⟨f, hf, hlast⟩ := Tiled.last_getLast h hne
  obtain ⟨g, gs, rfl⟩ := List.exists_cons_of_ne_nil hne
  have hfirst : (compactedFile (g :: gs) kept).first = want := h.1
  have hl : (compactedFile (g :: gs) kept).last = f.last := by simp [compactedFile, hf]
  have hlt : want ≤ f.last := by
    have := h.2.1
    have := h.2.2.2.le
    have := h.1
    omega
  refine ⟨hfirst, by omega, ⟨h.ascending.sublist hsub, ?_, fun hs => nomatch hs⟩, ?_⟩
  · intro r hr
    have := h.record_bounds (hsub.subset hr)
    omega
  · rw [Tiled, hl]
    exact hlast

/-- The swap puts the new file where the group stood. -/
theorem replaceGroup_eq {compacted : LogFile} (h : Tiled 1 (pre ++ group ++ post) next)
    (hne : group ≠ []) :
    replaceGroup (pre ++ group ++ post) group compacted = pre ++ compacted :: post := by
  obtain ⟨g, gs, rfl⟩ := List.exists_cons_of_ne_nil hne
  -- The files before the group start below its first file.
  have hidx : (pre ++ g :: gs ++ post).findIdx
      (fun f => some f.first == (g :: gs).head?.map LogFile.first) = pre.length := by
    rw [List.append_assoc] at h
    obtain ⟨mid, hpre, hgroup⟩ := tiled_append.mp h
    have hlt : ∀ f ∈ pre, f.first ≠ g.first := by
      intro f hf
      obtain ⟨-, -, h2, h3⟩ := hpre.of_mem hf
      have := hgroup.1
      omega
    rw [List.append_assoc, List.findIdx_append, List.findIdx_eq_length.mpr]
    · simp [List.findIdx_cons]
    · intro f hf
      simpa using hlt f hf
  unfold replaceGroup
  simp only [hidx]
  congr 1
  · simp
  · simp [← List.drop_drop]

/-- What the swap of a group does: the records of the group make room for the kept ones. -/
theorem compactGroup_spec (h : l.WF) (hclosed : l.closed = pre ++ group ++ post) (hne : group ≠ [])
    (hsub : kept.Sublist (group.flatMap LogFile.records)) :
    (l.compactGroup group kept).closed = pre ++ compactedFile group kept :: post ∧
    (l.compactGroup group kept).WF := by
  have heq : (l.compactGroup group kept).closed = pre ++ compactedFile group kept :: post := by
    show replaceGroup l.closed group _ = _
    rw [hclosed]
    exact replaceGroup_eq (hclosed ▸ h.closed) hne
  refine ⟨heq, ?_, h.active, h.dense, h.last⟩
  rw [heq, List.append_cons]
  obtain ⟨mid', mid, hpre, hgroup, hpost⟩ := h.split hclosed
  exact tiled_append.mpr ⟨mid, tiled_append.mpr ⟨mid', hpre, tiled_compactedFile hgroup hne hsub⟩,
    hpost⟩

/-- The records before and after the swap. -/
theorem records_compactGroup (h : l.WF) (hclosed : l.closed = pre ++ group ++ post)
    (hne : group ≠ []) (hsub : kept.Sublist (group.flatMap LogFile.records)) :
    (l.compactGroup group kept).records =
      pre.flatMap LogFile.records ++ (kept ++ post.flatMap LogFile.records) ++ l.active.records ∧
    l.records = pre.flatMap LogFile.records ++ group.flatMap LogFile.records ++
      post.flatMap LogFile.records ++ l.active.records := by
  constructor
  · rw [records_eq, (compactGroup_spec h hclosed hne hsub).1]
    simp [compactedFile, compactGroup]
  · rw [records_eq, hclosed]
    simp

/-- A record of the log after the swap was there before; one that is gone was in the group and not
kept. -/
theorem mem_records_compactGroup (h : l.WF) (hclosed : l.closed = pre ++ group ++ post)
    (hne : group ≠ []) (hsub : kept.Sublist (group.flatMap LogFile.records)) {r : Nat × LogRecord} :
    (r ∈ (l.compactGroup group kept).records → r ∈ l.records) ∧
    (r ∈ l.records → r ∈ (l.compactGroup group kept).records ∨
      r ∈ group.flatMap LogFile.records ∧ r ∉ kept) := by
  obtain ⟨hnew, hold⟩ := records_compactGroup h hclosed hne hsub
  rw [hnew, hold]
  simp only [List.mem_append]
  have hkept := hsub.subset (a := r)
  by_cases hr : r ∈ kept <;> tauto

end FilesystemLog

end CloudEtcd
