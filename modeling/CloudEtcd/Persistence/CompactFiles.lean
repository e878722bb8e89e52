/-
# CloudEtcd.Persistence.CompactFiles — what a whole `Compact` does to the row of files.

`Compact` cuts the files that end at or below its point into groups and rewrites some of them.
`foldl_flush` is the rule for that loop: whatever the swap of one group keeps, the loop keeps, and
each group ends up as its `outcome`.  `mem_records_compact` then says which records are
there afterwards: those of the files that were left alone, and the live ones of the others.

`Compaction` is the same code cut at its calls of `live`.  `Placed` is what holds of it while other
steps are taken and `live` changes its answers.
-/
import CloudEtcd.Persistence.LogFiles

namespace CloudEtcd

namespace FilesystemLog

variable {l : FilesystemLog} {through : Nat} {live : LiveFunc}

/-! ## The eligible files -/

/-- The records of files that end at or below a point are at or below it. -/
theorem records_le (h : l.WF) (fs : List LogFile) (hsub : ∀ f ∈ fs, f ∈ l.closed)
    (hle : ∀ f ∈ fs, f.last ≤ through) : ∀ p ∈ fs.flatMap LogFile.records, p.1 ≤ through := by
  intro p hp
  obtain ⟨f, hf, hpf⟩ := List.mem_flatMap.mp hp
  exact ((h.closed.of_mem (hsub f hf)).1.bounds p hpf).2.trans (hle f hf)

/-- The files that `Compact` does not look at. -/
def ineligible (l : FilesystemLog) (through : Nat) : List LogFile :=
  l.closed.filter fun f => through < f.last

/-- The eligible files are the first ones. -/
theorem eligible_append_ineligible (h : l.WF) (through : Nat) :
    l.eligible through ++ l.ineligible through = l.closed := by
  have hsplit : ∀ (fs : List LogFile) (want : Nat), Tiled want fs l.active.first →
      fs.filter (fun f => f.last ≤ through) ++ fs.filter (fun f => through < f.last) = fs := by
    intro fs
    induction fs with
    | nil => exact fun _ _ => rfl
    | cons f fs ih =>
      rintro want ⟨-, hle, -, htail⟩
      by_cases hf : f.last ≤ through
      · have hnot : ¬ through < f.last := not_lt.mpr hf
        simp only [List.filter_cons, hf, hnot, decide_true, decide_false, if_true,
          Bool.false_eq_true, if_false, List.cons_append, ih _ htail]
      · -- Behind a file that ends above the point every file does.
        have hall : ∀ g ∈ f :: fs, through < g.last := by
          intro g hg
          rcases List.mem_cons.mp hg with rfl | hg
          · exact not_le.mp hf
          · have h1 := (htail.of_mem hg).2.1
            have h2 := (htail.of_mem hg).2.2.1
            omega
        rw [List.filter_eq_nil_iff.mpr, List.filter_eq_self.mpr, List.nil_append]
        · exact fun g hg => decide_eq_true (hall g hg)
        · intro g hg
          simpa using hall g hg
  exact hsplit l.closed 1 h.closed

/-! ## Groups -/

/-- Grouping keeps the files in order. -/
theorem flatMap_groups (rotateBytes : Int) (g : Group) (ms : List Measured) :
    (groups rotateBytes g ms).flatMap Group.files = g.files ++ ms.map Measured.file := by
  induction ms generalizing g with
  | nil => simp [groups]
  | cons m ms ih =>
    rw [groups]
    split
    · rw [List.flatMap_cons, ih]
      simp [Group.empty, Group.add]
    · rw [ih]
      simp [Group.add]

theorem ne_nil_of_rewritten {g : Group} (h : g.rewritten = true) : g.files ≠ [] := by
  intro hnil
  simp [Group.rewritten, hnil] at h

/-- The groups of a compaction are the eligible files, in order. -/
theorem flatMap_compactionGroups (l : FilesystemLog) (through : Nat) (live : LiveFunc) :
    (l.compactionGroups through live).flatMap Group.files = l.eligible through := by
  rw [compactionGroups, flatMap_groups]
  simp [Group.empty, measure, Function.comp_def]

/-- The files of a group are closed ones that end at or below the point. -/
theorem files_of_compactionGroup {g : Group} (hg : g ∈ l.compactionGroups through live)
    {f : LogFile} (hf : f ∈ g.files) : f ∈ l.closed ∧ f.last ≤ through := by
  have hmem : f ∈ l.eligible through := by
    rw [← flatMap_compactionGroups l through live]
    exact List.mem_flatMap.mpr ⟨g, hg, hf⟩
  simpa [eligible] using hmem

/-- The files that a group leaves behind. -/
def Group.outcome (live : LiveFunc) (g : Group) : List LogFile :=
  if g.rewritten then
    [compactedFile g.files ((g.files.flatMap LogFile.records).filter (isLive live))]
  else g.files

variable {P : FilesystemLog → Prop}

/-- The loop over the groups: each makes room for its outcome, and what every swap keeps is kept. -/
theorem foldl_flush (gs : List Group) (l : FilesystemLog) (h : l.WF)
    (pre post : List LogFile) (hclosed : l.closed = pre ++ gs.flatMap Group.files ++ post)
    (hP : P l)
    (hswap : ∀ l' : FilesystemLog, ∀ pre' post', ∀ g ∈ gs, l'.WF → g.files ≠ [] →
      l'.closed = pre' ++ g.files ++ post' → P l' →
      P (l'.compactGroup g.files ((g.files.flatMap LogFile.records).filter (isLive live)))) :
    (gs.foldl (flush live) l).WF ∧
    (gs.foldl (flush live) l).closed = pre ++ gs.flatMap (Group.outcome live) ++ post ∧
    P (gs.foldl (flush live) l) := by
  induction gs generalizing l pre with
  | nil => exact ⟨h, by simpa using hclosed, hP⟩
  | cons g gs ih =>
    have hswap' := fun l' pre' post' g' hg' =>
      hswap l' pre' post' g' (List.mem_cons_of_mem g hg')
    rw [List.flatMap_cons, ← List.append_assoc] at hclosed
    rw [List.foldl_cons, List.flatMap_cons, ← List.append_assoc]
    by_cases hg : g.rewritten = true
    · have hne := ne_nil_of_rewritten hg
      have hclosed' : l.closed = pre ++ g.files ++ (gs.flatMap Group.files ++ post) := by
        simpa using hclosed
      obtain ⟨heq, hwf⟩ := compactGroup_spec h hclosed' hne
        (List.filter_sublist : ((g.files.flatMap LogFile.records).filter
          (isLive live)).Sublist _)
      have hstep : flush live l g = l.compactGroup g.files
          ((g.files.flatMap LogFile.records).filter (isLive live)) := if_pos hg
      have hout : g.outcome live = [compactedFile g.files
          ((g.files.flatMap LogFile.records).filter (isLive live))] := if_pos hg
      rw [hstep, hout]
      refine ih _ hwf _ ?_ (hswap l pre _ g List.mem_cons_self h hne hclosed' hP) hswap'
      rw [heq]
      simp
    · rw [show flush live l g = l from if_neg hg, show g.outcome live = g.files from if_neg hg]
      exact ih l h _ hclosed hP hswap'

/-- What every swap keeps, `Compact` keeps. -/
theorem compact_induction (h : l.WF) (hP : P l)
    (hswap : ∀ l' : FilesystemLog, ∀ pre' post', ∀ g ∈ l.compactionGroups through live, l'.WF →
      g.files ≠ [] → l'.closed = pre' ++ g.files ++ post' → P l' →
      P (l'.compactGroup g.files ((g.files.flatMap LogFile.records).filter (isLive live)))) :
    (l.compact through live).WF ∧
    (l.compact through live).closed =
      (l.compactionGroups through live).flatMap (Group.outcome live) ++ l.ineligible through ∧
    P (l.compact through live) := by
  refine foldl_flush _ l h [] (l.ineligible through) ?_ hP hswap
  rw [List.nil_append, flatMap_compactionGroups, eligible_append_ineligible h]

/-- `Compact` leaves the outcomes of its groups and the files it did not look at. -/
theorem compact_spec (h : l.WF) (through : Nat) (live : LiveFunc) :
    (l.compact through live).WF ∧ (l.compact through live).closed =
      (l.compactionGroups through live).flatMap (Group.outcome live) ++ l.ineligible through := by
  obtain ⟨hwf, hclosed, -⟩ := compact_induction (P := fun _ => True) h trivial
    fun _ _ _ _ _ _ _ _ _ => trivial
  exact ⟨hwf, hclosed⟩

/-- `Compact` touches nothing but the closed files. -/
theorem compact_frame (h : l.WF) (through : Nat) (live : LiveFunc) :
    (l.compact through live).opts = l.opts ∧ (l.compact through live).active = l.active ∧
    (l.compact through live).lastRevision = l.lastRevision ∧
    (l.compact through live).cache = l.cache := by
  refine (compact_induction (P := fun l' => l'.opts = l.opts ∧ l'.active = l.active ∧
    l'.lastRevision = l.lastRevision ∧ l'.cache = l.cache) h ⟨rfl, rfl, rfl, rfl⟩ ?_).2.2
  intro l' _ _ g _ _ _ _ hP
  exact hP

/-! ## The records afterwards -/

/-- The files that `Compact` leaves alone: groups of one file with few dead records, files that end
above the point, and the active file. -/
def leftAlone (l : FilesystemLog) (through : Nat) (live : LiveFunc) : List LogFile :=
  ((l.compactionGroups through live).filter fun g => !g.rewritten).flatMap Group.files ++
    l.ineligible through ++ [l.active]

theorem leftAlone_sublist (h : l.WF) (through : Nat) (live : LiveFunc) :
    (l.leftAlone through live).Sublist l.files := by
  rw [files, ← eligible_append_ineligible h through, ← flatMap_compactionGroups l through live]
  refine (List.Sublist.append ?_ (List.Sublist.refl _)).append (List.Sublist.refl _)
  exact List.filter_sublist.flatMap _

variable {p : Nat × LogRecord}

/-- The records that the groups leave behind. -/
theorem mem_flatMap_outcome {gs : List Group} :
    p ∈ (gs.flatMap (Group.outcome live)).flatMap LogFile.records ↔
      (∃ g ∈ gs, g.rewritten = true ∧ p ∈ g.files.flatMap LogFile.records ∧
        isLive live p = true) ∨
      p ∈ ((gs.filter fun g => !g.rewritten).flatMap Group.files).flatMap LogFile.records := by
  have hgroup : ∀ g : Group, p ∈ (g.outcome live).flatMap LogFile.records ↔
      (g.rewritten = true ∧ p ∈ g.files.flatMap LogFile.records ∧ isLive live p = true) ∨
      (g.rewritten = false ∧ p ∈ g.files.flatMap LogFile.records) := by
    intro g
    unfold Group.outcome
    cases hg : g.rewritten <;> simp [compactedFile]
  rw [List.flatMap_assoc, List.flatMap_assoc, List.mem_flatMap, List.mem_flatMap]
  simp only [hgroup, List.mem_filter, Bool.not_eq_true']
  constructor
  · rintro ⟨g, hg, hr | ⟨hr, hp⟩⟩
    · exact Or.inl ⟨g, hg, hr⟩
    · exact Or.inr ⟨g, ⟨hg, hr⟩, hp⟩
  · rintro (⟨g, hg, hr⟩ | ⟨g, ⟨hg, hr⟩, hp⟩)
    · exact ⟨g, hg, Or.inl hr⟩
    · exact ⟨g, hg, Or.inr ⟨hr, hp⟩⟩

/-- The records after a compaction: those of the files left alone and the live ones of the rewritten
groups. -/
theorem mem_records_compact (h : l.WF) :
    p ∈ (l.compact through live).records ↔
      p ∈ (l.leftAlone through live).flatMap LogFile.records ∨
      ∃ g ∈ l.compactionGroups through live, g.rewritten = true ∧
        p ∈ g.files.flatMap LogFile.records ∧ isLive live p = true := by
  rw [records_eq, (compact_spec h through live).2, (compact_frame h through live).2.1, leftAlone,
    List.flatMap_append, List.flatMap_append, List.flatMap_append, List.flatMap_singleton]
  simp only [List.mem_append, mem_flatMap_outcome, or_assoc]
  exact or_comm.trans (by simp only [or_assoc])

/-! ## A compaction beside other steps -/

/-- A scan of `records` in progress: it keeps some of what it passed over. -/
def Scan.Of (scan : Scan) (records : List (Nat × LogRecord)) : Prop :=
  ∃ passed, records = passed ++ scan.todo ∧ scan.kept.Sublist passed

theorem Scan.Of.start (records : List (Nat × LogRecord)) : (Scan.start records).Of records :=
  ⟨[], rfl, List.Sublist.refl []⟩

theorem Scan.Of.step {scan : Scan} {records : List (Nat × LogRecord)} (h : scan.Of records)
    (live : LiveFunc) : (scan.step live).Of records := by
  obtain ⟨passed, hsplit, hsub⟩ := h
  unfold Scan.step
  split
  · exact ⟨passed, hsplit, hsub⟩
  · next r rest htodo =>
    have hsplit' : records = (passed ++ [r]) ++ rest := by rw [hsplit, htodo, List.append_cons]
    split
    · split
      · exact ⟨passed ++ [r], hsplit', hsub.append (List.Sublist.refl _)⟩
      · exact ⟨passed, hsplit, hsub⟩
    · exact ⟨passed ++ [r], hsplit', hsub.trans (List.sublist_append_left _ _)⟩

/-- The files that a compaction has still to handle stand in the row where they stood, whatever was closed
behind them. -/
def Placed (closed : List LogFile) (through : Nat) : Compaction → Prop
  | .measuring _ file todo measured =>
    (∃ rest, closed = measured.map Measured.file ++ file :: todo ++ rest) ∧
    ∀ f ∈ measured.map Measured.file ++ file :: todo, f.last ≤ through
  | .rewriting scan group todo =>
    group ≠ [] ∧
    (∃ before rest, closed = before ++ group ++ todo.flatMap Group.files ++ rest) ∧
    (∀ f ∈ group ++ todo.flatMap Group.files, f.last ≤ through) ∧
    scan.Of (group.flatMap LogFile.records)

namespace Placed

variable {closed : List LogFile} {job : Compaction}

theorem later (h : Placed closed through job) (fs : List LogFile) :
    Placed (closed ++ fs) through job := by
  cases job with
  | measuring scan file todo measured =>
    obtain ⟨⟨rest, hrest⟩, hle⟩ := h
    exact ⟨⟨rest ++ fs, by rw [hrest, List.append_assoc]⟩, hle⟩
  | rewriting scan group todo =>
    obtain ⟨hne, ⟨before, rest, hrest⟩, hle, hscan⟩ := h
    exact ⟨hne, ⟨before, rest ++ fs, by rw [hrest, List.append_assoc]⟩, hle, hscan⟩

theorem start (hfiles : l.WF) (hstart : Compaction.start l through = some job) :
    Placed l.closed through job := by
  unfold Compaction.start at hstart
  split at hstart
  · cases hstart
  · next f fs heq =>
    cases hstart
    have hsplit := eligible_append_ineligible hfiles through
    rw [heq] at hsplit
    refine ⟨⟨l.ineligible through, by simpa using hsplit.symm⟩, fun g hg => ?_⟩
    have hmem : g ∈ l.eligible through := by
      rw [heq]
      simpa using hg
    simpa using (List.mem_filter.mp hmem).2

/-- The next group to rewrite, behind groups that are left alone. -/
theorem nextGroup {gs : List Group}
    (hclosed : ∃ before rest, closed = before ++ gs.flatMap Group.files ++ rest)
    (hle : ∀ f ∈ gs.flatMap Group.files, f.last ≤ through)
    (hnext : Compaction.nextGroup gs = some job) : Placed closed through job := by
  induction gs with
  | nil => cases hnext
  | cons g gs ih =>
    obtain ⟨before, rest, hrest⟩ := hclosed
    rw [List.flatMap_cons] at hrest hle
    rw [Compaction.nextGroup] at hnext
    split at hnext
    · next hg =>
      cases hnext
      refine ⟨ne_nil_of_rewritten hg, ⟨before, rest, ?_⟩, hle, Scan.Of.start _⟩
      simpa using hrest
    · refine ih ⟨before ++ g.files, rest, by simpa using hrest⟩ ?_ hnext
      exact fun f hf => hle f (List.mem_append_right _ hf)

end Placed

/-- A step of a compaction at the end of a group: the group makes room for the records that were kept. -/
structure SwapsGroup (l : FilesystemLog) (through : Nat) (job : Compaction) (scan : Scan)
    (before group rest : List LogFile) : Prop where
  closed : l.closed = before ++ group ++ rest
  nonempty : group ≠ []
  kept : scan.kept.Sublist (group.flatMap LogFile.records)
  le : ∀ f ∈ group, f.last ≤ through
  job : ∃ todo, job = .rewriting scan group todo
  done : scan.todo = []

variable {group : List LogFile}

/-- When the scan of a group is done, the group is swapped. -/
theorem Placed.swaps {scan : Scan} {todo : List Group}
    (h : Placed l.closed through (.rewriting scan group todo)) (hdone : scan.todo = []) :
    ∃ before rest, SwapsGroup l through (.rewriting scan group todo) scan before group
      (todo.flatMap Group.files ++ rest) := by
  obtain ⟨hne, ⟨before, rest, hrest⟩, hle, passed, hsplit, hsub⟩ := h
  rw [hdone, List.append_nil] at hsplit
  have hclosed : l.closed = before ++ group ++ (todo.flatMap Group.files ++ rest) := by
    rw [hrest, List.append_assoc]
  exact ⟨before, rest, hclosed, hne, hsplit ▸ hsub, fun f hf => hle f (List.mem_append_left _ hf),
    ⟨todo, rfl⟩, hdone⟩

variable {job : Compaction}

/-- A step of a compaction leaves the log as it is, or swaps a group. -/
theorem Placed.step (hfiles : l.WF) (h : Placed l.closed through job) (live : LiveFunc) :
    ((job.step l live).1 = l ∨ ∃ scan before group rest,
      SwapsGroup l through job scan before group rest ∧
        (job.step l live).1 = l.compactGroup group scan.kept) ∧
    ∀ job', (job.step l live).2 = some job' → Placed (job.step l live).1.closed through job' := by
  cases job with
  | measuring scan file todo measured =>
    obtain ⟨⟨rest, hrest⟩, hle⟩ := h
    unfold Compaction.step
    dsimp only
    cases htodo : scan.todo with
    | cons p ps =>
      refine ⟨Or.inl rfl, fun job' hjob => ?_⟩
      cases hjob
      exact ⟨⟨rest, hrest⟩, hle⟩
    | nil =>
      cases todo with
      | cons next todo =>
        refine ⟨Or.inl rfl, fun job' hjob => ?_⟩
        cases hjob
        exact ⟨⟨rest, by simpa using hrest⟩, by simpa using hle⟩
      | nil =>
        -- Every file is measured: on to the first group.
        refine ⟨Or.inl rfl, fun job' hjob => Placed.nextGroup ⟨[], rest, ?_⟩ ?_ hjob⟩
        · rw [flatMap_groups]
          simpa [Group.empty] using hrest
        · rw [flatMap_groups]
          simpa [Group.empty] using hle
  | rewriting scan group todo =>
    unfold Compaction.step
    dsimp only
    cases htodo : scan.todo with
    | cons p ps =>
      refine ⟨Or.inl rfl, fun job' hjob => ?_⟩
      cases hjob
      exact ⟨h.1, h.2.1, h.2.2.1, h.2.2.2.step live⟩
    | nil =>
      obtain ⟨before, rest, hswap⟩ := h.swaps htodo
      refine ⟨Or.inr ⟨scan, before, group, _, hswap, rfl⟩, fun job' hjob => ?_⟩
      refine Placed.nextGroup ⟨before ++ [compactedFile group scan.kept], rest, ?_⟩ ?_ hjob
      · show (l.compactGroup group scan.kept).closed = _
        rw [(compactGroup_spec hfiles hswap.closed hswap.nonempty hswap.kept).1]
        simp
      · exact fun f hf => h.2.2.1 f (List.mem_append_right _ hf)

/-- Any other step leaves the log as it is. -/
theorem step_scanning (hjob : ∀ scan group todo, job = .rewriting scan group todo → scan.todo ≠ [])
    (live : LiveFunc) : (job.step l live).1 = l := by
  cases job with
  | measuring scan file todo measured =>
    unfold Compaction.step
    dsimp only
    cases scan.todo with
    | cons p ps => rfl
    | nil => cases todo <;> rfl
  | rewriting scan group todo =>
    unfold Compaction.step
    dsimp only
    cases htodo : scan.todo with
    | cons p ps => rfl
    | nil => exact absurd htodo (hjob scan group todo rfl)

/-- A compaction that rewrites has just begun with a group, or goes on with the same one. -/
theorem rewriting_of_step {scan' : Scan} {todo : List Group}
    (h : (job.step l live).2 = some (.rewriting scan' group todo)) :
    scan' = Scan.start (group.flatMap LogFile.records) ∨
      ∃ scan, job = .rewriting scan group todo ∧ scan' = scan.step live ∧
        (job.step l live).1 = l := by
  have hnext : ∀ gs, Compaction.nextGroup gs = some (.rewriting scan' group todo) →
      scan' = Scan.start (group.flatMap LogFile.records) := by
    intro gs
    induction gs with
    | nil => exact fun hnone => by cases hnone
    | cons g gs ih =>
      intro hnext
      rw [Compaction.nextGroup] at hnext
      split at hnext
      · cases hnext
        rfl
      · exact ih hnext
  cases job with
  | measuring scan file rest measured =>
    unfold Compaction.step at h
    dsimp only at h
    cases htodo : scan.todo with
    | cons p ps =>
      rw [htodo] at h
      cases h
    | nil =>
      rw [htodo] at h
      cases rest with
      | cons next rest => cases h
      | nil => exact Or.inl (hnext _ h)
  | rewriting scan group' todo' =>
    unfold Compaction.step at h
    dsimp only at h
    cases htodo : scan.todo with
    | cons p ps =>
      rw [htodo] at h
      cases h
      exact Or.inr ⟨scan, rfl, rfl, by simp [Compaction.step, htodo]⟩
    | nil =>
      rw [htodo] at h
      exact Or.inl (hnext _ h)

end FilesystemLog

end CloudEtcd
