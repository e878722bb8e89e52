/-
# CloudEtcd.Persistence.Reopen — closing a log and opening it again.

`open` sorts the files of the directory, drops those a compacted file supersedes, and checks that each
file is in order and starts where the one before it ends.  On the directory that `Close` leaves of a
well-formed log none of this finds anything to do, and `openDir_close` says what comes back: the
same files, so the same records under the same head, and an empty cache.  `Opened` is what a process
may assume of the log it starts on.
-/
import CloudEtcd.Persistence.LogFiles

namespace CloudEtcd

open History

namespace FilesystemLog

variable {want : Nat} {fs : List LogFile} {active : LogFile}

/-- A log as this program leaves it for `NewFilesystemLog`: its files tile the revisions, no record
writes a key twice, every event carries its record's revision, and the cache is empty. -/
structure Opened (log : FilesystemLog) : Prop where
  files : log.WF
  history : WellFormed log.records
  stamped : ∀ p ∈ log.records, ∀ e ∈ p.2.events, e.kv.modRevision = p.1
  cache : log.cache.ll = []

/-- An empty directory is opened as an empty log. -/
theorem opened_of_empty {opts : Options} {log : FilesystemLog} (hopen : openDir opts [] = .ok log) :
    log.Opened ∧ log.records = [] ∧ log.lastRevision = 0 := by
  cases hopen
  have hnil : ∀ {p : Nat × LogRecord}, p ∈ ([] : List (Nat × LogRecord)) → False := List.not_mem_nil
  refine ⟨⟨⟨rfl, wf_newActiveFile 0, rfl, rfl⟩, ⟨List.Pairwise.nil, ?_⟩, ?_, rfl⟩,
    rfl, rfl⟩
  · exact fun p hp => (hnil hp).elim
  · exact fun p hp => (hnil hp).elim

/-! ## Listing the directory -/

/-- The files of a row start one above another. -/
theorem firsts_ascend (h : Tiled want fs active.first) :
    (fs ++ [active]).Pairwise fun f g => f.first < g.first := by
  induction fs generalizing want with
  | nil => exact List.pairwise_singleton _ _
  | cons f fs ih =>
    obtain ⟨-, hle, -, htail⟩ := h
    refine List.pairwise_cons.mpr ⟨fun g hg => ?_, ih htail⟩
    rcases List.mem_append.mp hg with hg | hg
    · have := (htail.of_mem hg).2.1
      omega
    · obtain rfl := List.mem_singleton.mp hg
      have := htail.le
      omega

/-- In a row of files no compacted file supersedes another file. -/
theorem dropSuperseded_row (h : Tiled want fs active.first) (prev : Option DirEntry)
    (hprev : ∀ k, prev = some k → k.sparse = true → k.last < want) :
    dropSuperseded prev ((fs ++ [active]).map dirEntry) = (fs ++ [active]).map dirEntry := by
  -- One file is kept, whatever was kept before it ends below `want`.
  have hkeep : ∀ (f : LogFile) (rest : List DirEntry) (want : Nat) (prev : Option DirEntry),
      f.first = want → (∀ k, prev = some k → k.sparse = true → k.last < want) →
      dropSuperseded prev (dirEntry f :: rest) =
        dirEntry f :: dropSuperseded (some (dirEntry f)) rest := by
    intro f rest want prev hfirst hprev
    cases prev with
    | none => rfl
    | some k =>
      rw [dropSuperseded, if_neg]
      rintro ⟨hs, -, hle⟩
      have := hprev k rfl hs
      change f.first ≤ k.last at hle
      omega
  induction fs generalizing want prev with
  | nil =>
    exact hkeep active [] want prev h.symm hprev
  | cons f fs ih =>
    obtain ⟨hfirst, -, -, htail⟩ := h
    rw [List.cons_append, List.map_cons, hkeep f _ want prev hfirst hprev, ih htail]
    rintro k hk hs
    cases hk
    show (if f.sparse then f.last else 0) < f.last + 1
    rw [if_pos (show f.sparse = true from hs)]
    exact Nat.lt_succ_self _

theorem listFiles_close {l : FilesystemLog} (h : l.WF) : listFiles l.close = l.close := by
  have hsorted : l.close.Pairwise DirEntry.le :=
    List.pairwise_map.mpr ((firsts_ascend h.closed).imp fun hlt => Or.inl hlt)
  rw [listFiles, hsorted.insertionSort_eq]
  exact dropSuperseded_row h.closed none (by simp)

/-! ## Opening the files -/

/-- A file as `open` finds it again; only its size is taken anew. -/
def reopened (f : LogFile) : LogFile :=
  { f with size := LogCodec.header.length + LogCodec.appendedSize f.records }

theorem openFile_dirEntry {f : LogFile} (h : f.WF) (isLast : Bool) :
    openFile isLast (dirEntry f) = .ok (reopened f) := by
  obtain ⟨first, last, sparse, records, size⟩ := f
  unfold openFile
  rw [if_neg (fun ht => nomatch ht.1)]
  cases sparse with
  | true =>
    have hok : (∀ r ∈ records, first ≤ r.1 ∧ r.1 ≤ last) ∧
        records.Pairwise fun r r' => r.1 < r'.1 := ⟨h.bounds, h.ascending⟩
    simp only [dirEntry, if_true]
    exact if_pos hok
  | false =>
    obtain ⟨hdense, hlast⟩ := h.dense rfl
    have hrev : records.map Prod.fst = List.range' first records.length := hdense
    have hend : first + records.length - 1 = last := by
      change last + 1 = first + records.length at hlast
      omega
    simp [dirEntry, reopened, hrev, hend]

theorem openFiles_row (h : Tiled want fs active.first) (hactive : active.WF) :
    openFiles want ((fs ++ [active]).map dirEntry) = .ok ((fs ++ [active]).map reopened) := by
  induction fs generalizing want with
  | nil =>
    have hfirst : (reopened active).first = want := h.symm
    simp [openFiles, openFile_dirEntry hactive, hfirst, bind, Except.bind, pure, Except.pure]
  | cons f fs ih =>
    obtain ⟨hfirst, -, hwf, htail⟩ := h
    have hfirst' : (reopened f).first = want := hfirst
    have hrest : openFiles ((reopened f).last + 1) ((fs ++ [active]).map dirEntry) =
        .ok ((fs ++ [active]).map reopened) := ih htail
    rw [List.cons_append, List.map_cons, List.map_cons, openFiles, openFile_dirEntry hwf]
    simp only [bind, Except.bind, hfirst', ne_eq, not_true_eq_false, if_false, hrest, pure,
      Except.pure]

theorem tiled_map_reopened {next : Nat} (h : Tiled want fs next) :
    Tiled want (fs.map reopened) next := by
  induction fs generalizing want with
  | nil => exact h
  | cons f fs ih =>
    obtain ⟨hfirst, hle, hwf, htail⟩ := h
    exact ⟨hfirst, hle, ⟨hwf.ascending, hwf.bounds, hwf.dense⟩, ih htail⟩

/-! ## The log that comes back -/

/-- Opening what `Close` left succeeds, with the same records under the same head. -/
theorem openDir_close {l : FilesystemLog} (h : l.WF) (opts : Options) :
    ∃ l', openDir opts l.close = .ok l' ∧ l'.WF ∧ l'.records = l.records ∧
      l'.lastRevision = l.lastRevision ∧ l'.cache.ll = [] := by
  have hrow : openFiles 1 l.close = .ok (l.closed.map reopened ++ [reopened l.active]) := by
    have hfiles : openFiles 1 l.close = .ok ((l.closed ++ [l.active]).map reopened) :=
      openFiles_row h.closed h.active
    rwa [List.map_append, List.map_singleton] at hfiles
  have hlast : (l.closed.map reopened ++ [reopened l.active]).getLast? =
      some (reopened l.active) := List.getLast?_concat ..
  -- The last file is dense, so it is appended to again.
  have hdense : (reopened l.active).sparse = false := h.dense
  refine ⟨⟨opts.withDefaults, l.closed.map reopened, reopened l.active, l.active.last,
    RecordCache.new opts.withDefaults.cacheBytes⟩, ?_, ?_, ?_, h.last, rfl⟩
  · simp only [openDir, listFiles_close h, hrow, bind, Except.bind, hlast, hdense,
      Bool.false_eq_true, if_false, List.dropLast_concat, pure, Except.pure]
    rfl
  · exact ⟨tiled_map_reopened h.closed, ⟨h.active.ascending, h.active.bounds, h.active.dense⟩,
      h.dense, rfl⟩
  · rw [records_eq, records_eq, List.flatMap_map]
    rfl

end FilesystemLog

end CloudEtcd
