/-
# CloudEtcd.LogSystem.Restore — an empty directory is filled from the archive.

`reconcileArchive` downloads every archived file into an empty directory and lists it again.  If the
files that `listFiles` then keeps hold a log without gaps (`Archived`), `open` succeeds and the log ends
where the archive does (`openLog_archived`, `Archived.restore`).
-/
import CloudEtcd.LogSystem.Invariant

namespace CloudEtcd

open DiskLog

variable {archive : Dir} {names : List FileName} {fs : List LogFile} {last : Nat}

open LogCodec

/-! ## Downloading -/

/-- The directory into which some archived files have been downloaded. -/
def downloaded (archive : Dir) (names : List FileName) : Dir :=
  names.foldl (fun d n => d.insert n ((archive.lookup n).getD [])) ∅

theorem lookup_foldl_insert (archive : Dir) (names : List FileName) (d : Dir) (n : FileName) :
    (names.foldl (fun d n => d.insert n ((archive.lookup n).getD [])) d).lookup n =
      if n ∈ names then some ((archive.lookup n).getD []) else d.lookup n := by
  induction names generalizing d with
  | nil => simp
  | cons m names ih =>
    rw [List.foldl_cons, ih]
    by_cases hn : n ∈ names
    · simp [hn]
    · by_cases hm : n = m
      · subst hm
        simp [hn, AList.lookup_insert]
      · simp [hn, hm, AList.lookup_insert_ne hm]

theorem lookup_downloaded (hnames : ∀ n ∈ names, n ∈ archive) (n : FileName) :
    (downloaded archive names).lookup n = if n ∈ names then archive.lookup n else none := by
  rw [downloaded, lookup_foldl_insert]
  by_cases hn : n ∈ names
  · obtain ⟨data, hdata⟩ := Dir.mem_iff_lookup.mp (hnames n hn)
    simp [hn, hdata]
  · simp only [hn, if_false]
    rfl

theorem mem_downloaded (hnames : ∀ n ∈ names, n ∈ archive) {n : FileName} :
    n ∈ downloaded archive names ↔ n ∈ names := by
  rw [Dir.mem_iff_lookup, lookup_downloaded hnames]
  constructor
  · rintro ⟨data, hdata⟩
    by_contra hn
    rw [if_neg hn] at hdata
    cases hdata
  · intro hn
    obtain ⟨data, hdata⟩ := Dir.mem_iff_lookup.mp (hnames n hn)
    exact ⟨data, by rw [if_pos hn, hdata]⟩

/-- A sorted part of the names is the listing of what was downloaded. -/
theorem names_downloaded (h : names.Sublist archive.names) : (downloaded archive names).names = names := by
  refine Dir.names_eq (archive.names_precede.sublist h) fun n => ?_
  rw [mem_downloaded fun m hm => Dir.mem_names.mp (h.subset hm)]

/-! ## Files that are all archived -/

/-- The files that the listing of the archive keeps hold the records up to `last` without a gap. -/
structure Archived (archive : Dir) (fs : List LogFile) (last : Nat) : Prop where
  kept : keepFiles none archive.names = fs.map LogFile.name
  tiled : Tiled 1 fs (last + 1)
  disk : ∀ g ∈ fs, g.OnDisk
  holds : Holds archive fs

/-- The log that a restored directory holds. -/
def restoredLog (opts : Options) (fs : List LogFile) (last : Nat) : FilesystemLog where
  opts := opts.withDefaults
  closed := fs
  active := FilesystemLog.newActiveFile last
  lastRevision := last
  cache := RecordCache.new opts.withDefaults.cacheBytes

theorem wf_restoredLog (opts : Options) (h : Tiled 1 fs (last + 1)) : (restoredLog opts fs last).WF :=
  ⟨h, FilesystemLog.wf_newActiveFile last, rfl, rfl⟩

/-- The loop of `open` over whole files. -/
theorem openFiles_whole {d : Dir} {f : LogFile} (htiled : Tiled 1 (fs ++ [f]) (last + 1))
    (hdisk : ∀ g ∈ fs ++ [f], g.OnDisk) (hholds : Holds d (fs ++ [f])) (archived : FileName → Bool) :
    openFiles d 1 ((fs ++ [f]).map fun g => (g.name, archived g.name)) =
      (d, .ok (fs.map (fun g => openedEntry false (archived g.name) g) ++
        [openedEntry true (archived f.name) f])) := by
  obtain ⟨mid, hfs, hfirst, hle, -, -⟩ := tiled_append.mp htiled
  have hmem : f ∈ fs ++ [f] := List.mem_append_right _ (List.mem_singleton_self _)
  have hrow := openFiles_row (fun g hg => hdisk g (List.mem_append_left _ hg))
    (fun g hg => hholds g (List.mem_append_left _ hg)) archived [(f.name, archived f.name)]
    (by simp) le_rfl hfs
  have hopen := openFile_whole (hdisk f hmem) (by have := hfs.le; omega) (hholds f hmem) true
    (archived f.name)
  have hstart : (openedEntry true (archived f.name) f).first = mid := hfirst
  rw [List.map_append, List.map_singleton, hrow, openFiles]
  simp only [List.isEmpty_nil, hopen, hstart, ne_eq, not_true_eq_false, if_false,
    openFiles]

/-- `open` on a directory whose files are all archived: the last one is closed too. -/
theorem openLog_archived {d : Dir} (opts : Options) (hne : fs ≠ [])
    (hkept : keepFiles none d.names = fs.map LogFile.name) (htiled : Tiled 1 fs (last + 1))
    (hdisk : ∀ g ∈ fs, g.OnDisk) (hholds : Holds d fs) (hcovered : ∀ n ∈ archive.names, Within fs n)
    (hlast : ∀ f, fs.getLast? = some f → f.name ∈ archive) :
    ∃ log, openLog opts true archive d = (log.dir, .ok log) ∧
      Refines log (restoredLog opts fs last) := by
  obtain ⟨init, f, rfl⟩ := (List.eq_nil_or_concat' fs).resolve_left hne
  have hf : f.name ∈ archive := hlast f (by simp)
  have hkept' : (listDir d).2 = (init ++ [f]).map LogFile.name := hkept
  have hnames : (init ++ [f]).map LogFile.name ≠ [] := by simp
  have hlisted : Holds (listDir d).1 (init ++ [f]) := fun g hg => by
    rw [lookup_listDir, hkept', if_pos (List.mem_map_of_mem hg)]
    exact hholds g hg
  have hopen := openFiles_whole htiled hdisk hlisted fun n => decide (n ∈ archive)
  obtain ⟨mid, hinit, -, -, -, hend⟩ := tiled_append.mp htiled
  have hend' : f.last = last := by
    change f.last + 1 = last + 1 at hend
    omega
  have harchived : (openedEntry true (decide (f.name ∈ archive)) f).archived = true := by
    simp [openedEntry, hf]
  have hlastEntry : (openedEntry true (decide (f.name ∈ archive)) f).last = last := hend'
  have hwf := wf_restoredLog opts htiled
  -- The file that is created is behind all others.
  have hfresh : (freshFile last).name ∉ (listDir d).1 := fun hin => by
    obtain ⟨data, hdata⟩ := Dir.mem_iff_lookup.mp hin
    rw [lookup_listDir, hkept'] at hdata
    split at hdata
    · next hmem =>
      obtain ⟨g, hg, hname⟩ := List.mem_map.mp hmem
      have hfirst := congrArg FileName.first hname
      rw [g.first_name] at hfirst
      have := htiled.of_mem hg
      change g.first = last + 1 at hfirst
      omega
    · cases hdata
  have hcreated : createdName
      (init.map (fun g => openedEntry false (decide (g.name ∈ archive)) g) ++
        [openedEntry true (decide (f.name ∈ archive)) f]) = some (freshFile last).name := by
    rw [createdName_some (Or.inl harchived), hlastEntry]
  have hresult : openLog opts true archive d =
      let log := finishOpen opts.withDefaults true (listDir d).1
        (((archive.names.filter (· ∉ (init ++ [f]).map LogFile.name)).map
          fun n => { name := n, remove := true }))
        (init.map (fun g => openedEntry false (decide (g.name ∈ archive)) g) ++
          [openedEntry true (decide (f.name ∈ archive)) f])
      (log.dir, .ok log) := by
    simp only [openLog, if_true, reconcileArchive, hkept', hnames, false_and,
      if_false, reconcileNames_eq hcovered, List.map_map]
    rw [show ((init ++ [f]).map ((fun n => (n, decide (n ∈ archive))) ∘ LogFile.name)) =
      (init ++ [f]).map fun g => (g.name, decide (g.name ∈ archive)) from rfl, hopen]
    simp only [hcreated, Option.filter_some, hfresh, decide_false, Bool.false_eq_true,
      if_false]
  refine ⟨_, hresult, ?_⟩
  rw [finishOpen, List.getLast?_concat]
  simp only [harchived, true_or, if_true, hlastEntry]
  refine ⟨⟨rfl, ?_, describes_freshFile last, rfl, rfl⟩, hwf, ?_, ?_⟩
  · refine List.rel_append ?_ (.cons (openedEntry_describes (hdisk f (by simp)) _ _) .nil)
    rw [List.forall₂_map_left_iff, List.forall₂_same]
    exact fun g hg => openedEntry_describes (hdisk g (List.mem_append_left _ hg)) _ _
  · intro g hg
    show ((listDir d).1.insert (.dense (last + 1)) header).lookup g.name = _
    rcases List.mem_append.mp hg with hg | hg
    · have hne : g.name ≠ .dense (last + 1) := fun heq => by
        have hfirst := congrArg FileName.first heq
        rw [g.first_name] at hfirst
        have := htiled.of_mem hg
        change g.first = last + 1 at hfirst
        omega
      rw [AList.lookup_insert_ne hne]
      exact hlisted g hg
    · rw [List.mem_singleton.mp hg]
      exact AList.lookup_insert _
  · intro n hn
    change n ∈ (listDir d).1.insert (.dense (last + 1)) header at hn
    rcases (AList.mem_insert _).mp hn with rfl | hn
    · exact ⟨_, List.mem_append_right _ (List.mem_singleton_self _), rfl⟩
    · obtain ⟨data, hdata⟩ := Dir.mem_iff_lookup.mp hn
      rw [lookup_listDir, hkept'] at hdata
      split at hdata
      · next hin =>
        obtain ⟨g, hg, hname⟩ := List.mem_map.mp hin
        exact ⟨g, List.mem_append_left _ hg, hname⟩
      · cases hdata

/-- Every archived file is kept or covered. -/
theorem Archived.within (h : Archived archive fs last) : ∀ n ∈ archive.names, Within fs n := by
  intro n hn
  rcases keepFiles_covers none hn with hkept | ⟨p, hp | hp, hsup⟩
  · rw [h.kept] at hkept
    obtain ⟨g, hg, rfl⟩ := List.mem_map.mp hkept
    exact within_self hg
  · cases hp
  · rw [h.kept] at hp
    obtain ⟨g, hg, rfl⟩ := List.mem_map.mp hp
    exact ⟨g, hg, Or.inr hsup⟩

theorem Archived.mem (h : Archived archive fs last) {g : LogFile} (hg : g ∈ fs) : g.name ∈ archive :=
  Dir.mem_iff_lookup.mpr ⟨_, h.holds g hg⟩

/-- Opening an empty directory downloads the archive first. -/
theorem openLog_restores (opts : Options) (hne : archive.names ≠ []) :
    openLog opts true archive ∅ =
      openLog opts true archive (downloaded archive archive.names) := by
  have hnames : (downloaded archive archive.names).names = archive.names :=
    names_downloaded (List.Sublist.refl _)
  obtain ⟨n, ns, hcons⟩ := List.exists_cons_of_ne_nil hne
  have hkept : (listDir (downloaded archive archive.names)).2 ≠ [] := by
    show keepFiles none (downloaded archive archive.names).names ≠ []
    rw [hnames, hcons, keepFiles_keep (below_none _)]
    exact List.cons_ne_nil _ _
  have hempty : listDir (∅ : Dir) = (∅, []) := rfl
  unfold openLog reconcileArchive
  simp only [hempty, if_true, hne, ne_eq, not_false_eq_true, and_self, hkept, false_and, if_false]
  rfl

/-- Restoring an empty directory succeeds and reaches the end of the archive. -/
theorem Archived.restore (h : Archived archive fs last) (opts : Options) :
    ∃ log, openLog opts true archive ∅ = (log.dir, .ok log) ∧
      Refines log (restoredLog opts fs last) := by
  by_cases hfs : fs = []
  · -- Nothing has been archived.
    subst hfs
    have hlast : last = 0 := by
      have htiled := h.tiled
      change 1 = last + 1 at htiled
      omega
    have hnames : archive.names = [] := by
      cases hcons : archive.names with
      | nil => rfl
      | cons n ns =>
        have hkept := h.kept
        rw [hcons, keepFiles_keep (below_none _)] at hkept
        cases hkept
    have harchive : archive = ∅ := by
      apply AList.ext_iff.mpr
      have hkeys : archive.keys = [] := by
        apply List.eq_nil_iff_forall_not_mem.mpr
        intro n hn
        have := Dir.mem_names.mpr (show n ∈ archive from hn)
        rw [hnames] at this
        cases this
      exact List.map_eq_nil_iff.mp hkeys
    subst harchive hlast
    obtain ⟨log, hopen, hrefines, -⟩ := LogSystem.openLog_empty opts true
    exact ⟨log, hopen, hrefines⟩
  · have hne : archive.names ≠ [] := by
      intro hnil
      have hkept := h.kept
      rw [hnil] at hkept
      exact hfs (List.map_eq_nil_iff.mp hkept.symm)
    rw [openLog_restores opts hne]
    refine openLog_archived opts hfs ?_ h.tiled h.disk (fun g hg => ?_) h.within
      fun f hf => h.mem (List.mem_of_getLast? hf)
    · rw [names_downloaded (List.Sublist.refl _), h.kept]
    · rw [lookup_downloaded (fun m hm => Dir.mem_names.mp hm),
        if_pos (Dir.mem_names.mpr (h.mem hg))]
      exact h.holds g hg

end CloudEtcd
