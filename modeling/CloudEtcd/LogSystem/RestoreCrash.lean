/-
# CloudEtcd.LogSystem.RestoreCrash — a restore that is cut short.

`reconcileArchive` fills an empty directory from the archive: it downloads the files one after another
under their final names.  `Download` takes this in steps; undisturbed it ends with the directory that
`open` goes on with (`run_downloads`).  A crash leaves the directory of some step, with any part of the
file at hand, and the next `open` no longer finds the directory empty.

That `open` then fails without touching a file, or has the whole archived log, exactly if the file that
was cut short is not taken for a whole one or for one with a torn tail (`restore_crash_iff`).  The last
file of the listing is, if it is dense and has more than its header, or if it is compacted and was cut
between two records.
-/
import CloudEtcd.LogSystem.Durability

namespace CloudEtcd

open LogCodec DiskLog LogFile Transition Dir
open List (cons_append append_nil mem_append_right mem_map length_take_of_le mem_map_of_mem length_take
  length_append mem_append_left mem_singleton_self mem_append mem_singleton nodup_append mem_pair)

/-! ## The downloads -/

/-- A restore under way: the files to come, and the one at hand with the number of its bytes that are
written. -/
structure Download where
  archive : Dir
  dir : Dir
  todo : List FileName
  current : Option (FileName × Nat)

inductive DownloadAction where
  | create
  | copy (bytes : Nat)
  | finish

namespace Download

def init (archive : Dir) : Download := ⟨archive, ∅, archive.names, none⟩

/-- The archived object of a name. -/
def object (s : Download) (n : FileName) : Bytes := (s.archive.lookup n).getD []

/-- One step of the loop over `Archive.Download`. -/
def step (s : Download) : DownloadAction → Option Download
  | .create =>
    match s.current, s.todo with
    | none, n :: todo =>
      -- O_EXCL
      if n ∈ s.dir then none
      else some { s with dir := s.dir.insert n [], todo := todo, current := some (n, 0) }
    | _, _ => none
  | .copy k =>
    match s.current with
    | none => none
    | some (n, written) =>
      let chunk := ((s.object n).drop written).take k
      some { s with
        dir := appendTo s.dir n chunk
        current := some (n, written + chunk.length) }
  | .finish =>
    match s.current with
    | none => none
    | some (n, written) =>
      if written = (s.object n).length then some { s with current := none } else none

/-- The file at hand is the last one of the listing, and what it has passes for a log file: it is dense
and goes on behind its header, or it is compacted and ends with a record.  (A dense file that has just
its header is found out when the next active file, of the same name, is created.) -/
def unnoticed (s : Download) : Bool :=
  match s.current with
  | none => false
  | some (n, written) =>
    (keepFiles none s.archive.names).getLast? == some n && decide (written < (s.object n).length) &&
      if n.isSparse then
        match scan ((s.object n).take written) with
        | .ok found => found.complete == written
        | .error _ => false
      else decide (header.length < written)

end Download

/-- Opening a directory with an archive that holds `records` up to the revision `last`: it fails and
leaves every file as it is, or removes it, or the log has all the records and goes on behind them. -/
def SafeOpen (archive dir : Dir) (records : List (Nat × LogRecord)) (last : Nat) : Prop :=
  ∀ opts,
    match openLog opts true archive dir with
    | (dir', .error _) => ∀ n ∈ dir', dir'.lookup n = dir.lookup n
    | (_, .ok log) => last ≤ log.lastRevision ∧ log.readFrom 1 = .ok (encoded records)

/-! ## Listing a part of the archive -/

/-- `listFiles` goes through the names from left to right. -/
theorem keepFiles_append (prev : Option FileName) (xs ys : List FileName) :
    ∃ prev', keepFiles prev (xs ++ ys) = keepFiles prev xs ++ keepFiles prev' ys := by
  induction xs generalizing prev with
  | nil => exact ⟨prev, rfl⟩
  | cons x xs ih =>
    rw [cons_append, keepFiles, keepFiles]
    split
    · exact ih prev
    · obtain ⟨prev', heq⟩ := ih (some x)
      exact ⟨prev', by rw [heq, cons_append]⟩

/-- The first file is always kept. -/
theorem keepFiles_ne_nil {ns : List FileName} (h : ns ≠ []) : keepFiles none ns ≠ [] := by
  obtain ⟨n, ns, rfl⟩ := List.exists_cons_of_ne_nil h
  rw [keepFiles_keep (below_none _)]
  exact List.cons_ne_nil _ _

variable {n : FileName}

/-- The second loop of `reconcileArchive` fails on a file that is not there. -/
theorem reconcileNames_error {files names : List FileName} (hn : n ∈ names)
    (hfiles : n ∉ files) (hsup : ∀ f ∈ files, f.supersedes n.first = false) :
    ∃ e, reconcileNames files names = .error e := by
  induction names with
  | nil => cases hn
  | cons m names ih =>
    rw [reconcileNames]
    by_cases hm : m = n
    · subst hm
      have hany : ¬ files.any (·.supersedes m.first) = true := by
        rw [List.any_eq_true]
        rintro ⟨f, hf, hs⟩
        rw [hsup f hf] at hs
        cases hs
      exact ⟨_, by rw [if_neg hfiles, if_neg hany]⟩
    · obtain ⟨e, he⟩ := ih ((List.mem_cons.mp hn).resolve_left fun h => hm h.symm)
      rw [he]
      split
      · exact ⟨e, rfl⟩
      · split
        · exact ⟨e, rfl⟩
        · exact ⟨_, rfl⟩

theorem records_restoredLog (opts : Options) (fs : List LogFile) (last : Nat) :
    (restoredLog opts fs last).records = fs.flatMap records := by
  rw [FilesystemLog.records_eq]
  exact append_nil _

section Local

variable {archive dir : Dir} {fs : List LogFile} {last : Nat}
variable {f g : LogFile} {k : Nat} {init : List LogFile} {tail : Bytes}

theorem listDir_kept (d : Dir) : (listDir d).2 = keepFiles none d.names := rfl

/-- Nothing is changed by listing, files are only removed. -/
theorem lookup_listDir_of_mem {d : Dir} (hn : n ∈ (listDir d).1) :
    (listDir d).1.lookup n = d.lookup n := by
  obtain ⟨data, hdata⟩ := mem_iff_lookup.mp hn
  have hlook := lookup_listDir d n
  rw [hdata] at hlook ⊢
  split at hlook
  · exact hlook
  · cases hlook

/-- A file of the archived log is still to come: `open` fails before it reads a file. -/
theorem Archived.missing (h : Archived archive fs last) {rest : List FileName}
    (hnames : dir.names ++ rest = archive.names) (hne : dir.names ≠ [])
    (hrest : keepFiles none dir.names ≠ keepFiles none archive.names) (opts : Options) :
    ∃ e, openLog opts true archive dir = ((listDir dir).1, .error e) := by
  obtain ⟨prev, happ⟩ := keepFiles_append none dir.names rest
  rw [hnames, h.kept] at happ
  obtain ⟨here, there, rfl, hhere, hthere⟩ := List.map_eq_append_iff.mp happ
  have hcons : there ≠ [] := by
    rintro rfl
    rw [h.kept, ← hhere, append_nil] at hrest
    exact hrest rfl
  obtain ⟨g, there, rfl⟩ := List.exists_cons_of_ne_nil hcons
  have hgmem : g ∈ here ++ g :: there := mem_append_right _ List.mem_cons_self
  -- The files that are here end before it.
  obtain ⟨mid, htiled, hfirst, -⟩ := tiled_append.mp h.tiled
  have hbefore : ∀ f ∈ here, f.first < g.first ∧ f.last < g.first := fun f hf => by
    have := htiled.of_mem hf
    omega
  have hout : g.name ∉ (listDir dir).2 := by
    rw [listDir_kept, ← hhere]
    intro hin
    obtain ⟨f, hf, hname⟩ := mem_map.mp hin
    have hfirsts := congrArg FileName.first hname
    rw [f.first_name, g.first_name] at hfirsts
    exact absurd hfirsts (Nat.ne_of_lt (hbefore f hf).1)
  have hsup : ∀ n ∈ (listDir dir).2, n.supersedes g.name.first = false := by
    rw [listDir_kept, ← hhere]
    intro n hn
    obtain ⟨f, hf, rfl⟩ := mem_map.mp hn
    rw [← Bool.not_eq_true, supersedes_iff, g.first_name]
    rintro ⟨-, -, hle⟩
    exact absurd hle (Nat.not_le_of_lt (hbefore f hf).2)
  obtain ⟨e, he⟩ := reconcileNames_error (mem_names.mpr (h.mem hgmem)) hout hsup
  have hkept : (listDir dir).2 ≠ [] := keepFiles_ne_nil hne
  refine ⟨e, ?_⟩
  simp only [openLog, if_true, reconcileArchive, hkept, false_and, if_false, he]

/-- All files of the archived log are there. -/
theorem Archived.whole (h : Archived archive fs last) (hne : dir.names ≠ [])
    (hkept : keepFiles none dir.names = keepFiles none archive.names) (hholds : Holds dir fs) :
    SafeOpen archive dir (fs.flatMap records) last := by
  intro opts
  rw [h.kept] at hkept
  have hfs : fs ≠ [] := by
    rintro rfl
    exact keepFiles_ne_nil hne hkept
  obtain ⟨log, hopen, hrefines⟩ := openLog_archived opts hfs hkept h.tiled h.disk hholds h.within
    fun f hf => h.mem (List.mem_of_getLast? hf)
  rw [hopen]
  exact ⟨hrefines.index.lastRevision.ge, hrefines.readFrom_one.trans (by rw [records_restoredLog])⟩

/-! ## The last file cut short -/

/-- The first records of a file, under the same name. -/
def LogFile.firstRecords (f : LogFile) (k : Nat) : LogFile where
  first := f.first
  last := if f.sparse then f.last else f.first + k - 1
  sparse := f.sparse
  records := f.records.take k
  size := (encodeFile (f.records.take k)).length

theorem LogFile.name_firstRecords : (f.firstRecords k).name = f.name := by
  unfold name firstRecords
  cases hsparse : f.sparse with
  | true => rfl
  | false => rfl

theorem LogFile.wf_firstRecords (h : f.WF) (hpos : 1 ≤ f.first) (hk : k ≤ f.records.length) :
    (f.firstRecords k).WF := by
  have hlen : (f.records.take k).length = k := length_take_of_le hk
  have hfirst : ∀ r ∈ f.records.take k, r ∈ f.records := fun r hr => List.mem_of_mem_take hr
  cases hsparse : f.sparse with
  | true =>
    refine ⟨h.ascending.sublist (List.take_sublist k _), fun r hr => ?_, fun hdense => ?_⟩
    · have hlast : (f.firstRecords k).last = f.last := by simp [firstRecords, hsparse]
      rw [hlast]
      exact h.bounds r (hfirst r hr)
    · rw [show (f.firstRecords k).sparse = f.sparse from rfl, hsparse] at hdense
      cases hdense
  | false =>
    have hlast : (f.firstRecords k).last = f.first + k - 1 := by
      simp [firstRecords, hsparse]
    have hrange : (f.records.take k).map Prod.fst = List.range' f.first k := by
      obtain ⟨m, hm⟩ := Nat.exists_eq_add_of_le hk
      rw [List.map_take, (h.dense hsparse).1, count, hm, ← List.range'_append_1,
        List.take_left' (by simp)]
    refine ⟨h.ascending.sublist (List.take_sublist k _), fun r hr => ?_, fun _ => ⟨?_, ?_⟩⟩
    · have hr' : r.1 ∈ List.range' f.first k := hrange ▸ mem_map_of_mem hr
      rw [List.mem_range'_1] at hr'
      rw [hlast]
      show f.first ≤ r.1 ∧ _
      omega
    · show (f.records.take k).map Prod.fst = List.range' f.first (f.records.take k).length
      rw [hrange, hlen]
    · rw [hlast]
      show f.first + k - 1 + 1 = f.first + (f.records.take k).length
      omega

theorem LogFile.onDisk_firstRecords (h : f.OnDisk) (hpos : 1 ≤ f.first) (hk : k ≤ f.records.length) :
    (f.firstRecords k).OnDisk :=
  ⟨wf_firstRecords h.wf hpos hk, fun r hr => h.storable r (List.mem_of_mem_take hr), rfl⟩

/-- A part of a file that has the header: some records, and a torn tail. -/
theorem exists_cut_file (h : f.OnDisk) {w : Nat} (hheader : header.length ≤ w)
    (hw : w < (encodeFile f.records).length) :
    ∃ k < f.records.length, ∃ tail, TornTail tail ∧
      (encodeFile f.records).take w = encodeFile (f.firstRecords k).records ++ tail := by
  obtain ⟨k, tail, hcut, htail⟩ :=
    Framing.exists_cut write f.records h.storable (w - header.length)
  have htake : (encodeFile f.records).take w = encodeFile (f.records.take k) ++ tail := by
    rw [encodeFile, List.take_append, List.take_of_length_le hheader, hcut, encodeFile,
      List.append_assoc]
  refine ⟨k, ?_, tail, htail, htake⟩
  by_contra hk
  rw [List.take_of_length_le (Nat.le_of_not_lt hk)] at htake
  have hlen := congrArg List.length htake
  rw [length_take, length_append] at hlen
  omega

/-- `open` with all files of the archived log there: what it does with the last one decides. -/
theorem Archived.openLog_last (h : Archived archive (init ++ [f]) last)
    (hkept : keepFiles none dir.names = keepFiles none archive.names) (hholds : Holds dir init)
    (opts : Options) :
    ∃ opened, openLog opts true archive dir =
      match openFile true (decide (f.name ∈ archive)) f.name (listDir dir).1 with
      | (d, .error e) => (d, .error e)
      | (d, .ok x) =>
        if x.first ≠ f.first then (d, .error (.gap f.first f.name))
        else
          match (createdName (opened ++ [x])).filter fun n => decide (n ∈ d) with
          | some name => (d, .error (.present name))
          | none =>
            let l := finishOpen opts.withDefaults true d (removals archive (init ++ [f]))
              (opened ++ [x])
            (l.dir, .ok l) := by
  rw [h.kept] at hkept
  have hkept' : (listDir dir).2 = (init ++ [f]).map name := hkept
  have hnames : (init ++ [f]).map name ≠ [] := by simp
  have hlisted : Holds (listDir dir).1 init := fun g hg => by
    rw [lookup_listDir, hkept', if_pos (mem_map_of_mem (mem_append_left _ hg))]
    exact hholds g hg
  obtain ⟨mid, htiled, hfirst, -⟩ := tiled_append.mp h.tiled
  have hrow := openFiles_row (fun g hg => h.disk g (mem_append_left _ hg)) hlisted
    (fun n => decide (n ∈ archive)) [(f.name, decide (f.name ∈ archive))] (by simp) le_rfl htiled
  refine ⟨init.map fun g => openedEntry false (decide (g.name ∈ archive)) g, ?_⟩
  simp only [openLog, if_true, reconcileArchive, hkept', hnames, false_and,
    if_false, reconcileNames_eq h.within, List.map_map]
  rw [show (init ++ [f]).map ((fun n => (n, decide (n ∈ archive))) ∘ name) =
      init.map (fun g => (g.name, decide (g.name ∈ archive))) ++
        [(f.name, decide (f.name ∈ archive))] by simp, hrow, openFiles, hfirst]
  cases hopen : openFile true (decide (f.name ∈ archive)) f.name (listDir dir).1 with
  | mk d result =>
    cases result with
    | error e => simp [hopen]
    | ok x =>
      by_cases hx : x.first = mid
      · simp only [List.isEmpty_nil, hopen, hx, ne_eq, not_true_eq_false, if_false,
          openFiles]
        rfl
      · simp [hopen, hx]

theorem lastRevision_finishOpen (opts : Options) (archiving : Bool) (d : Dir)
    (ops : List ArchiverOp) (opened : List IndexFile) (x : IndexFile) :
    (finishOpen opts archiving d ops (opened ++ [x])).lastRevision = x.last := by
  rw [finishOpen, List.getLast?_concat]
  simp only
  split
  · rfl
  · rfl

section

variable (h : Archived archive (init ++ [f]) last)
include h

section

variable (hkept : keepFiles none dir.names = keepFiles none archive.names)
include hkept

/-- A file that was cut short in its header, or a compacted one in a record, is refused. -/
theorem Archived.refused (hholds : Holds dir init)
    {e : DiskLog.OpenFailure} (hopen : ∀ archived, openFile true archived f.name (listDir dir).1 =
    ((listDir dir).1, .error e)) (records : List (Nat × LogRecord)) :
    SafeOpen archive dir records last := by
  intro opts
  obtain ⟨opened, heq⟩ := h.openLog_last hkept hholds opts
  rw [heq, hopen]
  exact fun n hn => lookup_listDir_of_mem hn

/-- A dense file that was cut short is taken for one with a torn tail. -/
theorem Archived.openLog_torn (hholds : Holds dir init)
    (hname : g.name = f.name) (hg : g.OnDisk) (hdense : g.sparse = false) (htail : TornTail tail)
    (hdata : dir.lookup f.name = some (encodeFile g.records ++ tail)) (opts : Options) :
    ∃ d opened x, (∀ n, d.lookup n = if n = f.name then some (encodeFile g.records)
        else (listDir dir).1.lookup n) ∧ x.last = g.last ∧
      openLog opts true archive dir =
        if (freshFile g.last).name ∈ d then
          (d, .error (.present (freshFile g.last).name))
        else
          let l := finishOpen opts.withDefaults true d (removals archive (init ++ [f]))
            (opened ++ [x])
          (l.dir, .ok l) := by
  have hmem : f ∈ init ++ [f] := mem_append_right _ (mem_singleton_self f)
  have hfirst : g.first = f.first := by rw [← g.first_name, hname, f.first_name]
  have hpos : 1 ≤ g.first := hfirst ▸ (h.tiled.of_mem hmem).2.1
  have hlisted : (listDir dir).1.lookup g.name = some (encodeFile g.records ++ tail) := by
    rw [lookup_listDir, listDir_kept, hkept, h.kept, hname, if_pos (mem_map_of_mem hmem), hdata]
  obtain ⟨d, hopen, hlookup⟩ :=
    openFile_torn hg hpos hdense htail hlisted (decide (f.name ∈ archive))
  rw [hname] at hopen hlookup
  obtain ⟨opened, heq⟩ := h.openLog_last hkept hholds opts
  have hsame : ¬ (openedEntry true (decide (f.name ∈ archive)) g).first ≠ f.first :=
    not_not.mpr hfirst
  have hcreated : createdName (opened ++ [openedEntry true (decide (f.name ∈ archive)) g]) =
      some (freshFile g.last).name :=
    createdName_some (Or.inl (decide_eq_true (h.mem hmem)))
  refine ⟨d, opened, openedEntry true (decide (f.name ∈ archive)) g, hlookup, rfl, ?_⟩
  rw [heq, hopen]
  simp only [if_neg hsame, hcreated, Option.filter_some]
  by_cases hin : (freshFile g.last).name ∈ d
  · simp [hin]
  · simp [hin]

/-- With some of its records, it becomes the end of the log. -/
theorem Archived.shortened (hholds : Holds dir init) (hname : g.name = f.name) (hg : g.OnDisk)
    (hdense : g.sparse = false) (hlast : g.last < f.last) (hne : g.records ≠ [])
    (htail : TornTail tail) (hdata : dir.lookup f.name = some (encodeFile g.records ++ tail))
    (records : List (Nat × LogRecord)) : ¬ SafeOpen archive dir records last := by
  intro hsafe
  obtain ⟨d, opened, x, hlookup, hx, hopen⟩ :=
    h.openLog_torn hkept hholds hname hg hdense htail hdata ⟨0, 0⟩
  have hmem : f ∈ init ++ [f] := mem_append_right _ (mem_singleton_self f)
  have hfirst : g.first = f.first := by rw [← g.first_name, hname, f.first_name]
  have hend : f.last = last := by
    obtain ⟨mid, -, -, -, -, hend⟩ := tiled_append.mp h.tiled
    change f.last + 1 = last + 1 at hend
    omega
  have hcount : f.first < g.last + 1 := by
    have hdense' := (hg.wf.dense hdense).2
    have := List.length_pos_of_ne_nil hne
    simp only [count] at hdense'
    omega
  -- The file to be created starts behind all others.
  have hfresh : (freshFile g.last).name ∉ d := fun hin => by
    obtain ⟨data, hlook⟩ := mem_iff_lookup.mp hin
    have hfree : (freshFile g.last).name ∉ (init ++ [f]).map name := fun hold => by
      obtain ⟨x, hx, hxname⟩ := mem_map.mp hold
      have hxfirst := congrArg FileName.first hxname
      rw [x.first_name] at hxfirst
      change x.first = g.last + 1 at hxfirst
      obtain ⟨mid, htiled, hstart, -⟩ := tiled_append.mp h.tiled
      rcases mem_append.mp hx with hx | hx
      · have := htiled.of_mem hx
        omega
      · rw [mem_singleton.mp hx] at hxfirst
        omega
    have hother : (freshFile g.last).name ≠ f.name := fun heq => by
      rw [heq] at hfree
      exact hfree (mem_map_of_mem hmem)
    rw [hlookup, if_neg hother, lookup_listDir, listDir_kept, hkept, h.kept, if_neg hfree] at hlook
    cases hlook
  have hsafe' := hsafe ⟨0, 0⟩
  rw [hopen, if_neg hfresh] at hsafe'
  have hle : last ≤ x.last := by
    rw [← lastRevision_finishOpen _ true d _ opened x]
    exact hsafe'.1
  omega

/-- With none of its records, it is in the way of the next active file; but a torn tail is cut off
before that is noticed. -/
theorem Archived.emptied (hholds : Holds dir init)
    (hname : g.name = f.name) (hg : g.OnDisk) (hdense : g.sparse = false) (hnil : g.records = [])
    (htail : TornTail tail) (hdata : dir.lookup f.name = some (encodeFile g.records ++ tail))
    (records : List (Nat × LogRecord)) : SafeOpen archive dir records last ↔ tail = [] := by
  have hfirst : g.first = f.first := by rw [← g.first_name, hname, f.first_name]
  have hfresh : (freshFile g.last).name = f.name := by
    have hend := (hg.wf.dense hdense).2
    simp only [count, hnil, List.length_nil] at hend
    rw [← hname]
    simp [freshFile, IndexFile.name, name, hdense]
    omega
  constructor
  · intro hsafe
    obtain ⟨d, opened, x, hlookup, -, hopen⟩ :=
      h.openLog_torn hkept hholds hname hg hdense htail hdata ⟨0, 0⟩
    have hin : f.name ∈ d := mem_iff_lookup.mpr ⟨_, by rw [hlookup, if_pos rfl]⟩
    have hsafe' := hsafe ⟨0, 0⟩
    rw [hopen, hfresh, if_pos hin] at hsafe'
    have hsame := hsafe' f.name hin
    rw [hlookup, if_pos rfl, hdata] at hsame
    exact List.self_eq_append_right.mp (Option.some.inj hsame)
  · intro htail' opts
    obtain ⟨d, opened, x, hlookup, -, hopen⟩ :=
      h.openLog_torn hkept hholds hname hg hdense htail hdata opts
    have hin : f.name ∈ d := mem_iff_lookup.mpr ⟨_, by rw [hlookup, if_pos rfl]⟩
    rw [hopen, hfresh, if_pos hin]
    intro n hn
    rw [hlookup]
    split
    · next heq => rw [heq, hdata, htail', append_nil]
    · next hne =>
      apply lookup_listDir_of_mem
      obtain ⟨data, hlook⟩ := mem_iff_lookup.mp hn
      rw [hlookup, if_neg hne] at hlook
      exact mem_iff_lookup.mpr ⟨data, hlook⟩

/-- A compacted file that was cut short between two records is taken for a whole one. -/
theorem Archived.mistaken (hholds : Holds dir init) (hname : g.name = f.name)
    (hlast : g.last = f.last) (hg : g.OnDisk) (hcount : g.records.length < f.records.length)
    (hdata : dir.lookup f.name = some (encodeFile g.records)) :
    ¬ SafeOpen archive dir ((init ++ [f]).flatMap records) last := by
  intro hsafe
  have hfirst : g.first = f.first := by rw [← g.first_name, hname, f.first_name]
  have hnames : (init ++ [g]).map name = (init ++ [f]).map name := by simp [hname]
  obtain ⟨mid, htiled, hstart, hle, -, hend⟩ := tiled_append.mp h.tiled
  have htiled' : Tiled 1 (init ++ [g]) (last + 1) :=
    tiled_append.mpr ⟨mid, htiled, hfirst.trans hstart, by omega, hg.wf, hlast ▸ hend⟩
  have hwithin : ∀ n ∈ archive.names, Within (init ++ [g]) n := fun n hn => by
    obtain ⟨x, hx, hor⟩ := h.within n hn
    rcases mem_append.mp hx with hx | hx
    · exact ⟨x, mem_append_left _ hx, hor⟩
    · rw [mem_singleton.mp hx, ← hname] at hor
      exact ⟨g, mem_append_right _ (mem_singleton_self g), hor⟩
  have hdisk : ∀ x ∈ init ++ [g], x.OnDisk := fun x hx => by
    rcases mem_append.mp hx with hx | hx
    · exact h.disk x (mem_append_left _ hx)
    · exact mem_singleton.mp hx ▸ hg
  have hholds' : Holds dir (init ++ [g]) := fun x hx => by
    rcases mem_append.mp hx with hx | hx
    · exact hholds x hx
    · rw [mem_singleton.mp hx, hname]
      exact hdata
  have harchived : ∀ x, (init ++ [g]).getLast? = some x → x.name ∈ archive := fun x hx => by
    rw [List.getLast?_concat] at hx
    cases hx
    rw [hname]
    exact h.mem (mem_append_right _ (mem_singleton_self f))
  obtain ⟨log, hopen, hrefines⟩ := openLog_archived ⟨0, 0⟩ (by simp)
    (hkept.trans (h.kept.trans hnames.symm)) htiled' hdisk hholds' hwithin harchived
  have hsafe' := hsafe ⟨0, 0⟩
  rw [hopen] at hsafe'
  have hread := hsafe'.2
  rw [hrefines.readFrom_one, records_restoredLog] at hread
  have hlen := congrArg List.length (Except.ok.inj hread)
  simp only [encoded, List.length_map, List.flatMap_append, length_append,
    List.flatMap_singleton] at hlen
  omega

end

end

end Local

namespace Download

/-! ## Where the downloads stand -/

/-- `done` is downloaded, and a part of the file at hand. -/
structure At (s : Download) (done : List FileName) : Prop where
  names : done ++ (s.current.map Prod.fst).toList ++ s.todo = s.archive.names
  lookup : ∀ m, s.dir.lookup m =
    match s.current with
    | none => if m ∈ done then s.archive.lookup m else none
    | some (n, written) => if m = n then some ((s.object n).take written)
        else if m ∈ done then s.archive.lookup m else none
  written : ∀ n written, s.current = some (n, written) → written ≤ (s.object n).length

theorem at_init (archive : Dir) : At (init archive) [] :=
  ⟨rfl, fun _ => rfl, fun _ _ h => by cases h⟩

theorem At.step {s s' : Download} {done : List FileName} {a : DownloadAction} (h : At s done)
    (hstep : s.step a = some s') : s'.archive = s.archive ∧ ∃ done', At s' done' := by
  obtain ⟨archive, dir, todo, current⟩ := s
  cases a with
  | create =>
    simp only [Download.step] at hstep
    split at hstep
    · next _ n rest =>
      split at hstep
      · cases hstep
      · cases hstep
        refine ⟨rfl, done, by simpa using h.names, fun m => ?_, fun n' w hw => ?_⟩
        · by_cases hm : m = n
          · subst hm
            simp [AList.lookup_insert]
          · simp only [AList.lookup_insert_ne hm, if_neg hm]
            exact h.lookup m
        · cases hw
          exact Nat.zero_le _
    · cases hstep
  | copy k =>
    simp only [Download.step] at hstep
    split at hstep
    · cases hstep
    · next _ n w =>
      cases hstep
      obtain ⟨happend, hle⟩ := take_add_chunk _ (h.written n w rfl) k
      refine ⟨rfl, done, h.names, fun m => ?_, fun n' w' hw => ?_⟩
      · have hn := h.lookup n
        have hm := h.lookup m
        simp only [if_true] at hn hm ⊢
        rw [lookup_appendTo, hn, Option.getD_some]
        split
        · rw [happend]
          rfl
        · next hne => rw [hm, if_neg hne]
      · cases hw
        exact hle
  | finish =>
    simp only [Download.step] at hstep
    split at hstep
    · cases hstep
    · next _ n w =>
      split at hstep
      · next hall =>
        cases hstep
        have hnames := h.names
        have hmem : n ∈ archive := by
          rw [← mem_names, ← hnames]
          simp
        obtain ⟨data, hdata⟩ := mem_iff_lookup.mp hmem
        refine ⟨rfl, done ++ [n], by simpa using hnames, fun m => ?_,
          fun n' w' hw => by cases hw⟩
        have hm := h.lookup m
        simp only [object, hdata, Option.getD_some] at hall hm ⊢
        rw [hm, hall, List.take_length]
        by_cases hmn : m = n
        · subst hmn
          simp [hdata]
        · simp [hmn]
      · cases hstep

theorem at_run {archive : Dir} {as : List DownloadAction} {s : Download}
    (hrun : run step (init archive) as = some s) : s.archive = archive ∧ ∃ done, At s done :=
  run_invariant (P := fun s => s.archive = archive ∧ ∃ done, At s done)
    (fun _ _ _ ⟨hs, _, h⟩ hstep => ⟨(h.step hstep).1.trans hs, (h.step hstep).2⟩) hrun
    ⟨rfl, [], at_init archive⟩

/-- Undisturbed, the downloads end with the directory that `open` goes on with. -/
theorem run_downloads (archive : Dir) :
    run step (init archive)
      (archive.names.flatMap fun n =>
        [.create, .copy ((archive.lookup n).getD []).length, .finish]) =
      some ⟨archive, downloaded archive archive.names, [], none⟩ := by
  -- From any directory that has none of the files to come.
  suffices h : ∀ (names : List FileName) (dir : Dir), names.Nodup → (∀ n ∈ names, n ∉ dir) →
      run step ⟨archive, dir, names, none⟩
        (names.flatMap fun n => [.create, .copy ((archive.lookup n).getD []).length, .finish]) =
        some ⟨archive, names.foldl (fun d n => d.insert n ((archive.lookup n).getD [])) dir, [],
          none⟩ from
    h archive.names ∅ archive.nodup_names fun n _ => AList.notMem_empty n
  intro names
  induction names with
  | nil => exact fun _ _ _ => rfl
  | cons n names ih =>
    intro dir hnodup hnew
    have hcreate : step ⟨archive, dir, n :: names, none⟩ .create =
        some ⟨archive, dir.insert n [], names, some (n, 0)⟩ := if_neg (hnew n List.mem_cons_self)
    rw [List.flatMap_cons, cons_append, run_cons_eq_some]
    refine ⟨_, hcreate, ?_⟩
    simp only [cons_append, List.nil_append, run, step, object, Option.bind_some,
      List.drop_zero, List.take_length, Nat.zero_add, if_true, appendTo,
      AList.lookup_insert, Option.getD_some, AList.insert_insert, List.foldl_cons]
    refine ih _ (List.nodup_cons.mp hnodup).2 fun m hm hin => ?_
    rcases (AList.mem_insert _).mp hin with rfl | hin
    · exact (List.nodup_cons.mp hnodup).1 hm
    · exact hnew m (List.mem_cons_of_mem _ hm) hin

/-! ## The next `open` -/

theorem unnoticed_iff {s : Download} : s.unnoticed = true ↔ ∃ n written,
    s.current = some (n, written) ∧ (keepFiles none s.archive.names).getLast? = some n ∧
      written < (s.object n).length ∧
        if n.isSparse then ∃ found, scan ((s.object n).take written) = .ok found ∧
          found.complete = written
        else header.length < written := by
  unfold unnoticed
  cases hcurrent : s.current with
  | none => simp
  | some current =>
    obtain ⟨n, written⟩ := current
    cases hsparse : n.isSparse with
    | false => simp [hsparse, and_assoc]
    | true =>
      cases hscan : scan ((s.object n).take written) with
      | error e => simp [hscan, hsparse]
      | ok found => simp [hscan, hsparse, and_assoc]

section Open

variable {s : Download} {done : List FileName} {fs : List LogFile} {last : Nat}

theorem At.mem_dir (h : At s done) (m : FileName) :
    m ∈ s.dir ↔ m ∈ done ++ (s.current.map Prod.fst).toList := by
  have hsub : ∀ m ∈ done, m ∈ s.archive := fun m hm => by
    rw [← mem_names, ← h.names]
    simp [hm]
  rw [mem_iff_lookup, h.lookup, mem_append]
  cases hcurrent : s.current with
  | none =>
    by_cases hm : m ∈ done
    · simp [hm, mem_iff_lookup.mp (hsub m hm)]
    · simp [hm]
  | some current =>
    obtain ⟨n, written⟩ := current
    by_cases hn : m = n
    · simp [hn]
    · by_cases hm : m ∈ done
      · simp [hm, hn, mem_iff_lookup.mp (hsub m hm)]
      · simp [hm, hn]

/-- The listing of the directory is the beginning of that of the archive. -/
theorem At.names_dir (h : At s done) : s.dir.names = done ++ (s.current.map Prod.fst).toList := by
  have hsub : (done ++ (s.current.map Prod.fst).toList).Sublist s.archive.names := by
    rw [← h.names]
    exact List.sublist_append_left _ _
  exact names_eq (s.archive.names_precede.sublist hsub) fun m => (h.mem_dir m).symm

theorem At.names_append (h : At s done) : s.dir.names ++ s.todo = s.archive.names := by
  rw [h.names_dir, h.names]

/-- A finished file is as it is in the archive. -/
theorem At.lookup_done (h : At s done) {m : FileName} (hm : m ∈ done) :
    s.dir.lookup m = s.archive.lookup m := by
  rw [h.lookup]
  cases hcurrent : s.current with
  | none => simp [hm]
  | some current =>
    obtain ⟨n, written⟩ := current
    have hne : m ≠ n := by
      rintro rfl
      have hnodup := s.archive.nodup_names
      rw [← h.names, hcurrent] at hnodup
      simp only [Option.map_some, Option.toList_some, List.append_assoc] at hnodup
      exact (nodup_append.mp hnodup).2.2 m hm m (by simp) rfl
    simp [hm, hne]

/-- Nothing has been created yet. -/
theorem safe_empty (harch : Archived s.archive fs last) (hempty : s.dir.names = []) :
    SafeOpen s.archive s.dir (fs.flatMap records) last := by
  have hdir : s.dir = ∅ := eq_empty fun n => AList.lookup_eq_none.mpr fun hn => by
    rw [← mem_names, hempty] at hn
    cases hn
  intro opts
  obtain ⟨log, hopen, hrefines⟩ := harch.restore opts
  rw [hdir, hopen]
  exact ⟨hrefines.index.lastRevision.ge, hrefines.readFrom_one.trans (by rw [records_restoredLog])⟩

/-- A file of the archived log is still to come. -/
theorem At.safe_missing (h : At s done) (harch : Archived s.archive fs last)
    (hne : s.dir.names ≠ []) (hkept : keepFiles none s.dir.names ≠ keepFiles none s.archive.names) :
    SafeOpen s.archive s.dir (fs.flatMap records) last ∧ s.unnoticed = false := by
  constructor
  · intro opts
    obtain ⟨e, hopen⟩ := harch.missing h.names_append hne hkept opts
    rw [hopen]
    exact fun n hn => lookup_listDir_of_mem hn
  · rw [← Bool.not_eq_true, unnoticed_iff]
    rintro ⟨n, written, hcurrent, hlast, -⟩
    obtain ⟨prev, happ⟩ := keepFiles_append none s.dir.names s.todo
    rw [h.names_append] at happ
    have hcons : keepFiles prev s.todo ≠ [] := fun hnil => hkept (by rw [happ, hnil, append_nil])
    rw [happ, List.getLast?_append_of_ne_nil _ hcons] at hlast
    have htodo : n ∈ s.todo := (keepFiles_sublist prev s.todo).subset (List.mem_of_getLast? hlast)
    have hdir : n ∈ s.dir.names := by
      rw [h.names_dir, hcurrent]
      simp
    have hnodup := s.archive.nodup_names
    rw [← h.names_append] at hnodup
    exact (nodup_append.mp hnodup).2.2 n hdir n htodo rfl

/-- The files that are kept, except for one at hand, are as the archived log has them. -/
theorem At.holds (h : At s done) (harch : Archived s.archive fs last)
    (hkept : keepFiles none s.dir.names = keepFiles none s.archive.names) {gs : List LogFile}
    (hgs : ∀ g ∈ gs, g ∈ fs) (hcurrent : ∀ g ∈ gs, g.name ∉ (s.current.map Prod.fst).toList) :
    Holds s.dir gs := by
  intro g hg
  have hname : g.name ∈ s.dir.names := by
    apply (keepFiles_sublist none s.dir.names).subset
    rw [hkept, harch.kept]
    exact mem_map_of_mem (hgs g hg)
  rw [h.names_dir, mem_append] at hname
  rw [h.lookup_done (hname.resolve_right (hcurrent g hg))]
  exact harch.holds g (hgs g hg)

/-- The file at hand, if it is kept, is the last one. -/
theorem At.kept_current (h : At s done) (harch : Archived s.archive fs last)
    (hkept : keepFiles none s.dir.names = keepFiles none s.archive.names) {w : Nat}
    (hcurrent : s.current = some (n, w)) (hn : n ∈ keepFiles none s.archive.names) :
    ∃ init f, fs = init ++ [f] ∧ f.name = n ∧ ∀ g ∈ init, g.name ≠ n := by
  have hnames : s.dir.names = done ++ [n] := by rw [h.names_dir, hcurrent]; rfl
  have hnodup : n ∉ done := by
    have hnodup := s.dir.nodup_names
    rw [hnames] at hnodup
    exact fun hin => (nodup_append.mp hnodup).2.2 n hin n (mem_singleton_self n) rfl
  have hout : n ∉ keepFiles none done := fun hin => hnodup ((keepFiles_sublist none done).subset hin)
  obtain ⟨prev, happ⟩ := keepFiles_append none done [n]
  have hlast : keepFiles prev [n] = [n] := by
    rw [← hkept, hnames, happ, mem_append] at hn
    have hin := hn.resolve_left hout
    rw [keepFiles] at hin ⊢
    split at hin
    · cases hin
    · next hne => rw [if_neg hne]; rfl
  rw [hnames, happ, hlast, harch.kept] at hkept
  obtain ⟨init, l, rfl, hinit, hl⟩ := List.map_eq_append_iff.mp hkept.symm
  obtain ⟨f, rfl, hf⟩ := List.map_eq_singleton_iff.mp hl
  refine ⟨init, f, rfl, hf, fun g hg heq => hout ?_⟩
  rw [← hinit, ← heq]
  exact mem_map_of_mem hg

/-- The last file is at hand and not complete; all the others are there. -/
structure Short (s : Download) (init : List LogFile) (f : LogFile) (w last : Nat) : Prop where
  archived : Archived s.archive (init ++ [f]) last
  kept : keepFiles none s.dir.names = keepFiles none s.archive.names
  current : s.current = some (f.name, w)
  holds : Holds s.dir init
  data : s.dir.lookup f.name = some ((encodeFile f.records).take w)
  lt : w < (encodeFile f.records).length

namespace Short

variable {init : List LogFile} {f : LogFile} {w : Nat}

theorem mem_files : f ∈ init ++ [f] := mem_append_right _ (mem_singleton_self f)

section

variable (h : Short s init f w last)
include h

theorem object : s.object f.name = encodeFile f.records := by
  rw [Download.object, h.archived.holds f mem_files, Option.getD_some]

theorem listed : (listDir s.dir).1.lookup f.name = some ((encodeFile f.records).take w) := by
  rw [lookup_listDir, listDir_kept, h.kept, h.archived.kept,
    if_pos (mem_map_of_mem mem_files), h.data]

theorem first_pos : 1 ≤ f.first :=
  (h.archived.tiled.of_mem mem_files).2.1

theorem unnoticed_iff : s.unnoticed = true ↔
    if f.name.isSparse then ∃ found, scan ((encodeFile f.records).take w) = .ok found ∧
      found.complete = w
    else header.length < w := by
  have hlast : (keepFiles none s.archive.names).getLast? = some f.name := by
    rw [h.archived.kept, List.map_append, List.map_singleton, List.getLast?_concat]
  rw [Download.unnoticed_iff, ← h.object]
  constructor
  · rintro ⟨n, w', hcurrent, -, -, hor⟩
    rw [h.current] at hcurrent
    cases hcurrent
    exact hor
  · intro hor
    exact ⟨f.name, w, h.current, hlast, h.object ▸ h.lt, hor⟩

/-- Cut in its header. -/
theorem safe_header (hheader : w < header.length) :
    SafeOpen s.archive s.dir ((init ++ [f]).flatMap records) last := by
  have hshort : ((encodeFile f.records).take w).length < header.length := by
    rw [length_take]
    omega
  refine h.archived.refused (e := .scan f.name .badHeader) h.kept h.holds (fun archived => ?_) _
  simp only [openFile, h.listed, Option.getD_some, scan_short hshort]

/-- A dense file, cut at the end of its header or behind it. -/
theorem safe_dense (hheader : header.length ≤ w) (hdense : f.sparse = false) :
    SafeOpen s.archive s.dir ((init ++ [f]).flatMap records) last ↔ w = header.length := by
  have hdisk := h.archived.disk f mem_files
  obtain ⟨k, hk, tail, htail, hcut⟩ := exists_cut_file hdisk hheader h.lt
  have hg := onDisk_firstRecords hdisk h.first_pos (Nat.le_of_lt hk)
  have hdata := hcut ▸ h.data
  have hlen := congrArg List.length hcut
  rw [length_take_of_le (Nat.le_of_lt h.lt), length_append, length_encodeFile] at hlen
  by_cases hnil : (f.firstRecords k).records = []
  · rw [h.archived.emptied h.kept h.holds name_firstRecords hg hdense hnil htail hdata,
      ← List.length_eq_zero_iff]
    rw [hnil] at hlen
    change w = header.length + 0 + tail.length at hlen
    omega
  · have hshort : (f.firstRecords k).last < f.last := by
      have hpos := h.first_pos
      have hend := (hdisk.wf.dense hdense).2
      simp only [firstRecords, hdense, Bool.false_eq_true, if_false]
      simp only [count] at hend
      omega
    refine iff_of_false (h.archived.shortened h.kept h.holds name_firstRecords hg hdense
      hshort hnil htail hdata _) fun hw => ?_
    have hlt := length_encodeFile_lt (List.nil_sublist (f.firstRecords k).records)
      (fun heq => hnil heq.symm)
    rw [length_encodeFile, length_encodeFile] at hlt
    change header.length + 0 < _ at hlt
    omega

/-- A compacted file, cut behind its header: it matters if a record is torn. -/
theorem safe_sparse (hheader : header.length ≤ w) (hsparse : f.sparse = true) :
    SafeOpen s.archive s.dir ((init ++ [f]).flatMap records) last ↔
      ¬ ∃ found, scan ((encodeFile f.records).take w) = .ok found ∧ found.complete = w := by
  have hdisk := h.archived.disk f mem_files
  have hdata := h.data
  have hlisted := h.listed
  have hlen : w = ((encodeFile f.records).take w).length :=
    (length_take_of_le (Nat.le_of_lt h.lt)).symm
  obtain ⟨k, hk, tail, htail, hcut⟩ := exists_cut_file hdisk hheader h.lt
  have hg := onDisk_firstRecords hdisk h.first_pos (Nat.le_of_lt hk)
  have hscan := scan_encodeFile hg.storable htail
  rw [hcut] at hdata hlisted hlen ⊢
  rw [hscan]
  by_cases hnil : tail = []
  · subst hnil
    rw [append_nil] at hdata hlen
    refine iff_of_false (h.archived.mistaken h.kept h.holds name_firstRecords ?_ hg ?_
      hdata) (not_not.mpr ⟨_, rfl, hlen.symm⟩)
    · simp [firstRecords, hsparse]
    · exact (length_take_of_le (Nat.le_of_lt hk)).trans_lt hk
  · have hlt : (encodeFile (f.firstRecords k).records).length <
        (encodeFile (f.firstRecords k).records ++ tail).length := by
      have := List.length_pos_of_ne_nil hnil
      rw [length_append]
      omega
    have hname : f.name.isSparse = true := by simp [name, hsparse, FileName.isSparse]
    refine iff_of_true (h.archived.refused
      (e := .truncated f.name (encodeFile (f.firstRecords k).records).length) h.kept h.holds
      (fun archived => ?_) _) ?_
    · simp only [openFile, hlisted, Option.getD_some, hscan, if_pos hlt, hname, or_true,
        if_true]
    · rintro ⟨found, hfound, hcomplete⟩
      cases hfound
      exact absurd (hcomplete.trans hlen) (Nat.ne_of_lt hlt)

theorem safe_iff :
    SafeOpen s.archive s.dir ((init ++ [f]).flatMap records) last ↔ s.unnoticed = false := by
  rw [← Bool.not_eq_true, h.unnoticed_iff]
  by_cases hheader : header.length ≤ w
  · cases hsparse : f.sparse with
    | false =>
      have hname : f.name.isSparse = false := by simp [name, hsparse, FileName.isSparse]
      rw [h.safe_dense hheader hsparse, hname]
      simp only [Bool.false_eq_true, if_false]
      omega
    | true =>
      have hname : f.name.isSparse = true := by simp [name, hsparse, FileName.isSparse]
      rw [h.safe_sparse hheader hsparse, hname, if_pos rfl]
  · have hshort : ((encodeFile f.records).take w).length < header.length := by
      rw [length_take]
      omega
    refine iff_of_true (h.safe_header (Nat.lt_of_not_le hheader)) ?_
    rw [scan_short hshort]
    split
    · rintro ⟨found, hfound, -⟩
      cases hfound
    · omega

end

end Short

/-- Wherever the downloads stand. -/
theorem At.safe_iff (h : At s done) (harch : Archived s.archive fs last) :
    SafeOpen s.archive s.dir (fs.flatMap records) last ↔ s.unnoticed = false := by
  by_cases hempty : s.dir.names = []
  · refine iff_of_true (safe_empty harch hempty) ?_
    rw [← Bool.not_eq_true, unnoticed_iff]
    rintro ⟨n, w, hcurrent, -⟩
    rw [h.names_dir, hcurrent] at hempty
    simp at hempty
  by_cases hkept : keepFiles none s.dir.names = keepFiles none s.archive.names
  swap
  · exact iff_of_true (h.safe_missing harch hempty hkept).1 (h.safe_missing harch hempty hkept).2
  -- All files are there; what matters is the one at hand.
  cases hcurrent : s.current with
  | none =>
    have hholds : Holds s.dir fs := h.holds harch hkept (fun g hg => hg)
      fun g hg => by simp [hcurrent]
    refine iff_of_true (harch.whole hempty hkept hholds) ?_
    rw [unnoticed, hcurrent]
  | some current =>
    obtain ⟨n, w⟩ := current
    by_cases hn : n ∈ keepFiles none s.archive.names
    · obtain ⟨init, f, rfl, rfl, hinit⟩ := h.kept_current harch hkept hcurrent hn
      have hholds : Holds s.dir init := h.holds harch hkept
        (fun g hg => mem_append_left _ hg) fun g hg => by simpa [hcurrent] using hinit g hg
      have hobject : s.object f.name = encodeFile f.records := by
        rw [object, harch.holds f Short.mem_files, Option.getD_some]
      have hdata : s.dir.lookup f.name = some ((encodeFile f.records).take w) := by
        rw [h.lookup, hcurrent]
        simp [hobject]
      by_cases hw : w < (encodeFile f.records).length
      · exact Short.safe_iff ⟨harch, hkept, hcurrent, hholds, hdata, hw⟩
      · -- It is complete.
        rw [List.take_of_length_le (Nat.le_of_not_lt hw)] at hdata
        refine iff_of_true (harch.whole hempty hkept fun g hg => ?_) ?_
        · rcases mem_append.mp hg with hg | hg
          · exact hholds g hg
          · exact mem_singleton.mp hg ▸ hdata
        · rw [← Bool.not_eq_true, unnoticed_iff]
          rintro ⟨n, w', hcur, -, hlt, -⟩
          rw [hcurrent] at hcur
          cases hcur
          exact hw (hobject ▸ hlt)
    · -- It is superseded.
      have hholds : Holds s.dir fs := h.holds harch hkept (fun g hg => hg) fun g hg heq => by
        rw [hcurrent] at heq
        obtain rfl : g.name = n := mem_singleton.mp heq
        rw [harch.kept] at hn
        exact hn (mem_map_of_mem hg)
      refine iff_of_true (harch.whole hempty hkept hholds) ?_
      rw [← Bool.not_eq_true, unnoticed_iff]
      rintro ⟨n', w', hcur, hlast, -⟩
      rw [hcurrent] at hcur
      cases hcur
      exact hn (List.mem_of_getLast? hlast)

end Open

/-- After a crash at any step of a restore, opening the directory with the same archive fails or gives
the archived log, exactly if the file at hand is not taken for a whole one. -/
theorem restore_crash_iff {archive : Dir} {fs : List LogFile} {last : Nat}
    (harch : Archived archive fs last) {as : List DownloadAction} {s : Download}
    (hrun : Transition.run step (init archive) as = some s) :
    SafeOpen archive s.dir (fs.flatMap LogFile.records) last ↔ s.unnoticed = false := by
  obtain ⟨rfl, done, h⟩ := at_run hrun
  exact h.safe_iff harch

/-! ## An archive of two files -/

/-- A dense file of puts. -/
def putsFrom (first : Nat) (keys : List UInt8) : LogFile where
  first := first
  last := first + keys.length - 1
  sparse := false
  records := numberFrom first (keys.map LogSystem.putKey)
  size := (encodeFile (numberFrom first (keys.map LogSystem.putKey))).length

def twoArchived : Dir :=
  AList.insert (FileName.dense 2) (encodeFile (putsFrom 2 [98, 99]).records)
    (AList.insert (FileName.dense 1) (encodeFile (putsFrom 1 [97]).records) ∅)

theorem archived_twoArchived : Archived twoArchived [putsFrom 1 [97], putsFrom 2 [98, 99]] 3 := by
  have hone : (putsFrom 1 [97]).OnDisk :=
    ⟨⟨by unfold Ascending; decide +kernel, by decide +kernel, fun _ => by decide +kernel⟩,
      by decide +kernel, rfl⟩
  have htwo : (putsFrom 2 [98, 99]).OnDisk :=
    ⟨⟨by unfold Ascending; decide +kernel, by decide +kernel, fun _ => by decide +kernel⟩,
      by decide +kernel, rfl⟩
  refine ⟨by decide +kernel, ⟨rfl, by decide, hone.wf, rfl, by decide, htwo.wf, rfl⟩, fun g hg => ?_,
    fun g hg => ?_⟩
  · rcases mem_pair.mp hg with rfl | rfl
    · exact hone
    · exact htwo
  · rcases mem_pair.mp hg with rfl | rfl
    · exact (AList.lookup_insert_ne (by decide)).trans (AList.lookup_insert _)
    · exact AList.lookup_insert _

/-- The first file is downloaded, and a part of the header of the second one. -/
theorem restore_crash_header : ∃ s, Transition.run step (init twoArchived)
    [.create, .copy 100, .finish, .create, .copy 5] = some s ∧
      SafeOpen twoArchived s.dir
        ([putsFrom 1 [97], putsFrom 2 [98, 99]].flatMap LogFile.records) 3 := by
  obtain ⟨s, hs, hfalse⟩ : ∃ s, run step (init twoArchived)
      [.create, .copy 100, .finish, .create, .copy 5] = some s ∧ s.unnoticed = false := by
    decide +kernel
  exact ⟨s, hs, (restore_crash_iff archived_twoArchived hs).mpr hfalse⟩

/-- One of the two records of the second file is downloaded: the log ends at revision 2, and the next
record would get the revision 3, which is archived. -/
theorem restore_crash_shortens : ∃ archive fs s, Archived archive fs 3 ∧
    Transition.run step (init archive) [.create, .copy 100, .finish, .create, .copy 27] = some s ∧
      (∃ log, (DiskLog.openLog ⟨0, 0⟩ true archive s.dir).2 = .ok log ∧ log.lastRevision = 2) ∧
        ¬ SafeOpen archive s.dir (fs.flatMap LogFile.records) 3 := by
  obtain ⟨s, hs, log, hok, hlast⟩ : ∃ s, run step (init twoArchived)
      [.create, .copy 100, .finish, .create, .copy 27] = some s ∧
      ∃ log, (openLog ⟨0, 0⟩ true twoArchived s.dir).2 = .ok log ∧ log.lastRevision = 2 := by
    decide +kernel
  refine ⟨twoArchived, _, s, archived_twoArchived, hs, ⟨log, hok, hlast⟩, fun hsafe => ?_⟩
  have hsafe' := hsafe ⟨0, 0⟩
  cases hresult : openLog ⟨0, 0⟩ true twoArchived s.dir with
  | mk dir result =>
    rw [hresult] at hok hsafe'
    cases hok
    have hle : 3 ≤ log.lastRevision := hsafe'.1
    omega

end Download

end CloudEtcd
