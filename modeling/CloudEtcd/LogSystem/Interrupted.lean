/-
# CloudEtcd.LogSystem.Interrupted — directories that a crash leaves behind.

`listFiles` on the directory of an interrupted compaction either keeps the new file and drops the
files it replaced, or, when the first of them is itself a compacted file and still there, keeps the
old files and drops the new one: of two compacted files that start at the same revision the shorter
sorts first.  Both ways the directory recovers to a log (`Replacing.recovers`).  A batch that was cut
short leaves a torn tail (`Recovers.cut`), and a new active file whose header was cut short makes the
directory unreadable (`Dead`).
-/
import CloudEtcd.LogSystem.Recovery

namespace CloudEtcd

open FilesystemLog Dir LogFile
open FileName (Precedes precedes_of_first_lt)
open List (append_cons pairwise_append mem_singleton mem_append map_cons cons_append mem_cons_self
  mem_cons_of_mem pairwise_map pairwise_cons mem_cons map_append map_singleton mem_map_of_mem mem_map
  mem_append_left append_nil mem_append_right mem_singleton_self map_nil not_mem_nil map_map)

variable {n : FileName} {fs : List LogFile}

open LogCodec

/-! ## Names -/

namespace Dir

/-- Writing to a file that exists does not change the listing. -/
theorem names_insert_of_mem {d : Dir} (h : n ∈ d) (data : Bytes) :
    names (d.insert n data) = d.names := by
  refine names_eq d.names_precede fun m => ?_
  rw [mem_names, AList.mem_insert]
  constructor
  · exact Or.inr
  · rintro (rfl | hm)
    · exact h
    · exact hm

/-- A file that sorts behind all others is listed last. -/
theorem names_insert_last {d : Dir} (h : ∀ m ∈ d, m.first < n.first)
    (data : Bytes) : names (d.insert n data) = d.names ++ [n] := by
  refine names_eq (pairwise_append.mpr ⟨d.names_precede, List.pairwise_singleton _ _, ?_⟩)
    fun m => ?_
  · intro a ha b hb
    rw [mem_singleton.mp hb]
    exact precedes_of_first_lt (h a (mem_names.mp ha))
  · rw [mem_append, mem_names, mem_singleton, AList.mem_insert]
    exact or_comm

theorem names_removeAll (d : Dir) (ns : List FileName) :
    (d.removeAll ns).names = d.names.filter (· ∉ ns) := by
  refine names_eq (d.names_precede.sublist List.filter_sublist) fun m => ?_
  rw [List.mem_filter, mem_names, mem_removeAll]
  simp

end Dir

/-! ## The loop of `listFiles` -/

/-- The file kept last supersedes nothing from `want` on. -/
def Below (prev : Option FileName) (want : Nat) : Prop :=
  ∀ p, prev = some p → ∀ r, want ≤ r → p.supersedes r = false

theorem below_none (want : Nat) : Below none want := fun p hp => by cases hp

theorem below_name (g : LogFile) : Below (some g.name) (g.last + 1) := by
  intro p hp r hr
  obtain rfl := Option.some.inj hp
  unfold name
  split
  · simp only [FileName.supersedes, Bool.and_eq_false_iff, decide_eq_false_iff_not]
    omega
  · rfl

theorem keepFiles_keep {prev : Option FileName} (h : Below prev n.first) (ns : List FileName) :
    keepFiles prev (n :: ns) = n :: keepFiles (some n) ns := by
  rw [keepFiles, if_neg]
  cases prev with
  | none => simp
  | some p => simp [h p rfl n.first le_rfl]

/-- A row of files is kept. -/
theorem keepFiles_row : ∀ {want next : Nat} {prev : Option FileName},
    Tiled want fs next → Below prev want → ∀ ns, ∃ prev', Below prev' next ∧
      keepFiles prev (fs.map name ++ ns) =
        fs.map name ++ keepFiles prev' ns := by
  induction fs with
  | nil =>
    intro want next prev htiled hprev ns
    cases htiled
    exact ⟨prev, hprev, rfl⟩
  | cons g fs ih =>
    intro want next prev htiled hprev ns
    obtain ⟨hfirst, -, -, htail⟩ := htiled
    obtain ⟨prev', hbelow, heq⟩ := ih htail (below_name g) ns
    refine ⟨prev', hbelow, ?_⟩
    rw [map_cons, cons_append, keepFiles_keep (by rwa [g.first_name, hfirst]), heq]
    rfl

/-- The files that the last kept file covers are dropped. -/
theorem keepFiles_superseded (p : FileName) (olds : List FileName)
    (h : ∀ n ∈ olds, p.supersedes n.first = true) (ns : List FileName) :
    keepFiles (some p) (olds ++ ns) = keepFiles (some p) ns := by
  induction olds with
  | nil => rfl
  | cons n olds ih =>
    rw [cons_append, keepFiles, if_pos (by simp [h n mem_cons_self])]
    exact ih fun m hm => h m (mem_cons_of_mem _ hm)

variable {ns : List FileName}

/-- Dropping files that would not be kept changes nothing. -/
theorem keepFiles_filter {p : FileName → Bool} :
    ∀ {prev : Option FileName}, (∀ n ∈ keepFiles prev ns, p n = true) →
      keepFiles prev (ns.filter p) = keepFiles prev ns := by
  induction ns with
  | nil => exact fun _ => rfl
  | cons n ns ih =>
    intro prev h
    rw [keepFiles] at h ⊢
    split at h
    · next hdrop =>
      rw [if_pos hdrop]
      cases hp : p n with
      | false =>
        rw [List.filter_cons_of_neg (by simp [hp])]
        exact ih h
      | true =>
        rw [List.filter_cons_of_pos hp, keepFiles, if_pos hdrop]
        exact ih h
    · next hkeep =>
      rw [if_neg hkeep, List.filter_cons_of_pos (h n mem_cons_self), keepFiles,
        if_neg hkeep, ih fun m hm => h m (mem_cons_of_mem _ hm)]

/-! ## Rows -/

/-- The names of files that start one above another are sorted. -/
theorem names_precede_of_ascending (h : fs.Pairwise fun f g => f.first < g.first) :
    (fs.map name).Pairwise Precedes := by
  refine pairwise_map.mpr (h.imp fun {f g} hlt => precedes_of_first_lt ?_)
  rwa [f.first_name, g.first_name]

variable {l : FilesystemLog} {group : List LogFile}

/-- The files of a group start one above another. -/
theorem group_ascends {pre rest : List LogFile} (hwf : l.WF)
    (hclosed : l.closed = pre ++ group ++ rest) : group.Pairwise fun f g => f.first < g.first := by
  have hasc := firsts_ascend hwf.closed
  rw [hclosed] at hasc
  exact (pairwise_append.mp (pairwise_append.mp (pairwise_append.mp hasc).1).1).2.1

/-- A name finds its place between others. -/
theorem precede_insert {xs ys : List FileName} (h : (xs ++ ys).Pairwise Precedes)
    (hxs : ∀ x ∈ xs, x.Precedes n) (hys : ∀ y ∈ ys, n.Precedes y) :
    (xs ++ n :: ys).Pairwise Precedes := by
  obtain ⟨hx, hy, hxy⟩ := pairwise_append.mp h
  refine pairwise_append.mpr ⟨hx, pairwise_cons.mpr ⟨hys, hy⟩, fun x hx m hm => ?_⟩
  rcases mem_cons.mp hm with rfl | hm
  · exact hxs x hx
  · exact hxy x hx m hm

/-- The listing of a directory that has just the files of a log. -/
theorem keepFiles_files (hwf : l.WF) : keepFiles none (l.files.map name) = l.files.map name := by
  obtain ⟨prev, hprev, heq⟩ := keepFiles_row hwf.closed (below_none 1) [l.active.name]
  rw [files, map_append, map_singleton, heq,
    keepFiles_keep (by rwa [l.active.first_name])]
  rfl

variable {dir : Dir}

theorem names_files (hwf : l.WF) (hmem : ∀ n, n ∈ dir ↔ n ∈ l.files.map name) :
    dir.names = l.files.map name :=
  names_eq (names_precede_of_ascending (firsts_ascend hwf.closed)) fun n => (hmem n).symm

theorem HoldsOnly.mem_iff (h : HoldsOnly dir fs) (n : FileName) : n ∈ dir ↔ n ∈ fs.map name := by
  constructor
  · intro hn
    obtain ⟨g, hg, rfl⟩ := h.only n hn
    exact mem_map_of_mem hg
  · intro hn
    obtain ⟨g, hg, rfl⟩ := mem_map.mp hn
    exact mem_iff_lookup.mpr ⟨_, h.holds g hg⟩

/-- A directory that has just the files of a log recovers to it. -/
theorem HoldsOnly.recovers (h : HoldsOnly dir l.files)
    (hwf : l.WF) (hdisk : ∀ g ∈ l.files, g.OnDisk) : Recovers dir l where
  wf := hwf
  disk := hdisk
  kept := by rw [names_files hwf h.mem_iff, keepFiles_files hwf]
  closed := h.holds.subset fun g hg => mem_append_left _ hg
  active := ⟨[], tornTail_nil, by
    rw [append_nil]
    exact h.holds _ (mem_append_right _ (mem_singleton_self _))⟩

/-! ## A group that is being replaced -/

/-- The names of the files that a new file replaces. -/
def replacedNames (group : List LogFile) (kept : List (Nat × LogRecord)) : List FileName :=
  (group.map name).filter (· ≠ (compactedFile group kept).name)

/-- The directory while the files of a group make room for the new one: the new file is in place and
the files `ns`, the last of those it replaces, are still there.  `l` is the log before the swap. -/
structure Replacing (dir : Dir) (l : FilesystemLog) (pre group rest : List LogFile)
    (kept : List (Nat × LogRecord)) (ns : List FileName) : Prop where
  wf : l.WF
  disk : ∀ g ∈ l.files, g.OnDisk
  closed : l.closed = pre ++ group ++ rest
  ne : group ≠ []
  sub : kept.Sublist (group.flatMap LogFile.records)
  left : ns <:+ replacedNames group kept
  new : dir.lookup (compactedFile group kept).name = some (encodeFile kept)
  others : Holds dir (pre ++ rest ++ [l.active])
  old : ∀ g ∈ group, g.name ∈ ns → dir.lookup g.name = some (encodeFile g.records)
  only : ∀ n ∈ dir, n = (compactedFile group kept).name ∨
    n ∈ (pre ++ rest ++ [l.active]).map name ∨ n ∈ ns

/-- The new file is dropped when the directory is listed: the first of the replaced files is a
compacted one and still there. -/
def Undone (group : List LogFile) (ns : List FileName) : Prop :=
  ∃ g, group.head? = some g ∧ g.sparse = true ∧ g.name ∈ ns

instance (group : List LogFile) (ns : List FileName) : Decidable (Undone group ns) :=
  match h : group.head? with
  | none => isFalse (by rintro ⟨g, hg, -⟩; rw [h] at hg; cases hg)
  | some g => decidable_of_iff (g.sparse = true ∧ g.name ∈ ns)
      ⟨fun hg => ⟨g, h, hg⟩, fun ⟨g', hg', hor⟩ => by
        rw [h] at hg'
        cases hg'
        exact hor⟩

/-- The log that the directory recovers to. -/
def recovered (l : FilesystemLog) (group : List LogFile) (kept : List (Nat × LogRecord))
    (ns : List FileName) : FilesystemLog :=
  if Undone group ns then l else l.compactGroup group kept

variable {kept : List (Nat × LogRecord)}

theorem mem_replacedNames :
    n ∈ replacedNames group kept ↔
      (∃ g ∈ group, g.name = n) ∧ n ≠ (compactedFile group kept).name := by
  simp [replacedNames]

theorem onDisk_compactedFile {a b : Nat} (htiled : Tiled a group b) (hne : group ≠ [])
    (hsub : kept.Sublist (group.flatMap LogFile.records)) (hdisk : ∀ g ∈ group, g.OnDisk) :
    (compactedFile group kept).OnDisk := by
  refine ⟨(tiled_compactedFile htiled hne hsub).2.2.1, fun r hr => ?_, ?_⟩
  · obtain ⟨g, hg, hrg⟩ := List.mem_flatMap.mp (hsub.subset hr)
    exact (hdisk g hg).storable r hrg
  · rw [length_encodeFile]
    rfl

namespace Replacing

variable {dir : Dir} {l : FilesystemLog} {pre group rest : List LogFile}
  {kept : List (Nat × LogRecord)} {ns : List FileName}
variable {g : LogFile}

section

variable (h : Replacing dir l pre group rest kept ns)
include h

theorem sub_name (hn : n ∈ ns) :
    ∃ g ∈ group, g.name = n := (mem_replacedNames.mp (h.left.subset hn)).1

theorem group_mem (hg : g ∈ group) : g ∈ l.closed := by
  rw [h.closed]
  simp [hg]

theorem tiled : ∃ a b, Tiled 1 pre a ∧ Tiled a group b ∧ Tiled b rest l.active.first :=
  h.wf.split h.closed

/-- The new file covers every file of the group. -/
theorem supersedes (hg : g ∈ group) :
    (compactedFile group kept).name.supersedes g.first = true := by
  obtain ⟨a, b, -, hgroup, -⟩ := h.tiled
  obtain ⟨hfirst, -, -, hlast⟩ := tiled_compactedFile hgroup h.ne h.sub
  obtain ⟨-, h1, h2, h3⟩ := hgroup.of_mem hg
  change _ + 1 = b at hlast
  simp only [name, compactedFile, if_true, FileName.supersedes,
    Bool.and_eq_true, decide_eq_true_eq] at hfirst hlast ⊢
  omega

theorem onDisk_new : (compactedFile group kept).OnDisk := by
  obtain ⟨a, b, -, hgroup, -⟩ := h.tiled
  exact onDisk_compactedFile hgroup h.ne h.sub fun g hg =>
    h.disk g (mem_append_left _ (h.group_mem hg))

theorem files_compactGroup :
    (l.compactGroup group kept).files =
      pre ++ compactedFile group kept :: rest ++ [l.active] := by
  rw [files, (compactGroup_spec h.wf h.closed h.ne h.sub).1]
  rfl

/-- All files of the group are still there if its first one is, unless that is the file rewritten in
place. -/
theorem left_eq {gs : List LogFile} (hgroup : group = g :: gs) (hg : g.name ∈ ns) :
    ns = group.map name := by
  obtain ⟨a, b, -, htiled, -⟩ := h.tiled
  have hasc := group_ascends h.wf h.closed
  rw [hgroup, pairwise_cons] at hasc
  have hne := (mem_replacedNames.mp (h.left.subset hg)).2
  -- No file of the group has the new file's name: the first does not, and the others start later.
  have hfull : replacedNames group kept = group.map name := by
    rw [replacedNames, List.filter_eq_self]
    intro n hn
    simp only [decide_eq_true_eq, ne_eq]
    rw [hgroup, map_cons] at hn
    rcases mem_cons.mp hn with rfl | hn
    · exact hne
    · obtain ⟨x, hx, rfl⟩ := mem_map.mp hn
      intro heq
      have hlt := hasc.1 x hx
      have hfirst := congrArg FileName.first heq
      rw [x.first_name, first_name, hgroup] at hfirst
      change x.first = g.first at hfirst
      omega
  obtain ⟨gone, hgone⟩ := h.left
  rw [hfull] at hgone
  cases gone with
  | nil => exact hgone
  | cons m gone =>
    exfalso
    rw [hgroup, map_cons, cons_append] at hgone
    obtain ⟨rfl, htail⟩ := List.cons.inj hgone
    have hin : g.name ∈ gs.map name := by
      rw [← htail]
      exact mem_append_right _ hg
    obtain ⟨x, hx, heq⟩ := mem_map.mp hin
    have hlt := hasc.1 x hx
    have hfirst := congrArg FileName.first heq
    rw [x.first_name, g.first_name] at hfirst
    omega

theorem mem_dir (n : FileName) :
    n ∈ dir ↔ n = (compactedFile group kept).name ∨
      n ∈ (pre ++ rest ++ [l.active]).map name ∨ n ∈ ns := by
  refine ⟨h.only n, ?_⟩
  rintro (rfl | hn | hn)
  · exact mem_iff_lookup.mpr ⟨_, h.new⟩
  · obtain ⟨g, hg, rfl⟩ := mem_map.mp hn
    exact mem_iff_lookup.mpr ⟨_, h.others g hg⟩
  · obtain ⟨g, hg, rfl⟩ := h.sub_name hn
    exact mem_iff_lookup.mpr ⟨_, h.old g hg hn⟩

/-- The first revisions of the parts of the directory, in order. -/
theorem ascending :
    (pre ++ (group ++ (rest ++ [l.active]))).Pairwise fun f g => f.first < g.first := by
  have := firsts_ascend h.wf.closed
  rw [h.closed] at this
  simpa using this

/-- The old files are kept when the first of them is a compacted one. -/
theorem kept_undone (hundone : Undone group ns) : keepFiles none dir.names = l.files.map name := by
  obtain ⟨g, hhead, hsparse, hg⟩ := hundone
  obtain ⟨gs, hgroup⟩ := List.head?_eq_some_iff.mp hhead
  have hns := h.left_eq hgroup hg
  set new := compactedFile group kept with hnew
  have hgname : g.name = .sparse g.first g.last := by simp [name, hsparse]
  have hnewName : new.name = .sparse g.first new.last := by
    rw [hnew]
    simp [name, compactedFile, hgroup]
  have hne := (mem_replacedNames.mp (h.left.subset hg)).2
  obtain ⟨a, b, hpre, htiled, hrest⟩ := h.tiled
  rw [hgroup] at htiled
  obtain ⟨hfirst, hle, -, hgs⟩ := htiled
  have hlast : g.last ≤ new.last := by
    obtain ⟨-, -, -, hend⟩ := tiled_compactedFile (hgroup ▸ ⟨hfirst, hle,
      (h.disk g (mem_append_left _ (h.group_mem (by simp [hgroup])))).wf, hgs⟩ :
        Tiled a group b) h.ne h.sub
    change new.last + 1 = b at hend
    have := hgs.le
    omega
  -- The names in order: the new file sorts behind the first old one.
  have hnames : dir.names = pre.map name ++ (g.name :: new.name ::
      (gs.map name ++ (rest.map name ++ [l.active.name]))) := by
    have hasc := h.ascending
    rw [hgroup] at hasc
    have hold := names_precede_of_ascending hasc
    simp only [map_append, map_cons, cons_append, map_nil] at hold
    rw [append_cons] at hold
    have hfirsts : ∀ x ∈ gs ++ (rest ++ [l.active]), g.first < x.first := by
      have := (pairwise_append.mp hasc).2.1
      rw [cons_append, pairwise_cons] at this
      exact this.1
    have hbefore : ∀ x ∈ pre, x.first < g.first := fun x hx =>
      (pairwise_append.mp hasc).2.2 x hx g (by simp)
    have hbehind : ∀ m ∈ gs.map name ++ (rest.map name ++ [l.active.name]),
        g.first < m.first := by
      intro m hm
      rw [← map_singleton, ← map_append, ← map_append] at hm
      obtain ⟨x, hx, rfl⟩ := mem_map.mp hm
      rw [x.first_name]
      exact hfirsts x hx
    have hnewFirst : new.name.first = g.first := by rw [hnewName]; rfl
    rw [append_cons]
    refine names_eq (precede_insert hold (fun m hm => ?_) fun m hm => ?_) fun n => ?_
    · rcases mem_append.mp hm with hm | hm
      · obtain ⟨x, hx, rfl⟩ := mem_map.mp hm
        apply precedes_of_first_lt
        rw [x.first_name, hnewFirst]
        exact hbefore x hx
      · rw [mem_singleton.mp hm]
        exact ⟨by rw [hgname, hnewName]; simp [FileName.le, hlast], hne⟩
    · exact precedes_of_first_lt (hnewFirst ▸ hbehind m hm)
    · rw [h.mem_dir, ← hnew, hns, hgroup]
      simp only [map_append, map_cons, map_nil, mem_append, mem_cons, not_mem_nil, or_false]
      tauto
  -- The loop keeps the old files and drops the new one.
  obtain ⟨p1, hp1, heq1⟩ := keepFiles_row hpre (below_none 1) (g.name :: new.name ::
    (gs.map name ++ (rest.map name ++ [l.active.name])))
  have hdrop : g.name.supersedes new.name.first = true := by
    rw [hgname, hnewName]
    simp [FileName.supersedes, FileName.first, hle]
  obtain ⟨p2, hp2, heq2⟩ := keepFiles_row hgs (below_name g)
    (rest.map name ++ [l.active.name])
  obtain ⟨p3, hp3, heq3⟩ := keepFiles_row hrest hp2 [l.active.name]
  rw [hnames, heq1, keepFiles_keep (by rw [g.first_name, hfirst]; exact hp1)]
  have hskip := keepFiles_superseded g.name [new.name] (fun m hm => by
    rw [mem_singleton.mp hm]
    exact hdrop) (gs.map name ++ (rest.map name ++ [l.active.name]))
  rw [List.singleton_append] at hskip
  rw [hskip, heq2, heq3, keepFiles_keep (by rw [l.active.first_name]; exact hp3)]
  rw [files, h.closed, hgroup]
  simp [keepFiles]

/-- Otherwise the new file is kept and the old ones are dropped. -/
theorem kept_replaced (hundone : ¬ Undone group ns) :
    keepFiles none dir.names = (l.compactGroup group kept).files.map name := by
  set new := compactedFile group kept with hnew
  obtain ⟨a, b, hpre, hgroup, hrest⟩ := h.tiled
  have hnewFirst : new.first = a := (tiled_compactedFile hgroup h.ne h.sub).1
  have hnewEnd : new.last + 1 = b :=
    (tiled_compactedFile hgroup h.ne h.sub).2.2.2
  have hasc := h.ascending
  -- The names that are left are a part of the group's, so they stay in order.
  have hsub : ns.Sublist (group.map name) :=
    h.left.sublist.trans List.filter_sublist
  have hlow : ∀ m ∈ ns, new.name.Precedes m := by
    intro m hm
    obtain ⟨⟨g, hg, rfl⟩, hne⟩ := mem_replacedNames.mp (h.left.subset hm)
    refine ⟨?_, hne.symm⟩
    have hle : a ≤ g.first := (hgroup.of_mem hg).2.1
    by_cases hlt : a < g.first
    · refine (precedes_of_first_lt ?_).1
      rwa [new.first_name, g.first_name, hnewFirst]
    · have heq : g.first = a := by omega
      -- A file that starts where the group does is its first, and that one is dense.
      obtain ⟨x, gs, hcons⟩ := List.exists_cons_of_ne_nil h.ne
      have hx : x.first = a := by
        rw [hcons] at hgroup
        exact hgroup.1
      have hgx : g = x := h.wf.file_eq (mem_append_left _ (h.group_mem hg))
        (mem_append_left _ (h.group_mem (hcons ▸ mem_cons_self))) (by omega)
      have hdense : g.sparse = false := by
        by_contra hs
        refine hundone ⟨x, by rw [hcons]; rfl, ?_, hgx ▸ hm⟩
        rw [← hgx]
        simpa using hs
      simp [name, hdense, hnew, compactedFile, FileName.le, hcons, hx, heq]
  have hnames : dir.names = pre.map name ++ (new.name ::
      (ns ++ (rest.map name ++ [l.active.name]))) := by
    have hmap : (pre.map name ++ (ns ++ (rest.map name ++ [l.active.name]))).Sublist
        ((pre ++ (group ++ (rest ++ [l.active]))).map name) := by
      simp only [map_append, map_cons, map_nil]
      exact (List.Sublist.refl _).append (hsub.append (List.Sublist.refl _))
    have hold := (names_precede_of_ascending hasc).sublist hmap
    have hbehind : ∀ m ∈ rest.map name ++ [l.active.name], a < m.first := by
      intro m hm
      rw [← map_singleton, ← map_append] at hm
      obtain ⟨x, hx, rfl⟩ := mem_map.mp hm
      obtain ⟨g, gs, hcons⟩ := List.exists_cons_of_ne_nil h.ne
      have hg : g.first = a := by
        rw [hcons] at hgroup
        exact hgroup.1
      have := (pairwise_append.mp (pairwise_append.mp hasc).2.1).2.2 g
        (by simp [hcons]) x hx
      rw [x.first_name]
      omega
    have hbefore : ∀ m ∈ pre.map name, m.first < a := by
      intro m hm
      obtain ⟨x, hx, rfl⟩ := mem_map.mp hm
      rw [x.first_name]
      have := hpre.of_mem hx
      omega
    have hnewName : new.name.first = a := by rw [new.first_name, hnewFirst]
    refine names_eq (precede_insert hold (fun m hm => ?_) fun m hm => ?_) fun n => ?_
    · exact precedes_of_first_lt (by rw [hnewName]; exact hbefore m hm)
    · rcases mem_append.mp hm with hm | hm
      · exact hlow m hm
      · exact precedes_of_first_lt (by rw [hnewName]; exact hbehind m hm)
    · rw [h.mem_dir, ← hnew]
      simp only [map_append, map_cons, map_nil, mem_append, mem_cons, not_mem_nil, or_false]
      tauto
  obtain ⟨p1, hp1, heq1⟩ := keepFiles_row hpre (below_none 1)
    (new.name :: (ns ++ (rest.map name ++ [l.active.name])))
  obtain ⟨p2, hp2, heq2⟩ := keepFiles_row hrest (hnewEnd ▸ below_name new) [l.active.name]
  have hskip := keepFiles_superseded new.name ns (fun m hm => by
    obtain ⟨g, hg, rfl⟩ := h.sub_name hm
    rw [g.first_name]
    exact h.supersedes hg) (rest.map name ++ [l.active.name])
  rw [hnames, heq1, keepFiles_keep (by rw [new.first_name, hnewFirst]; exact hp1), hskip, heq2,
    keepFiles_keep (by rw [l.active.first_name]; exact hp2), h.files_compactGroup]
  simp [keepFiles, hnew]

/-- The directory recovers, to the log before or after the group was compacted. -/
theorem recovers : Recovers dir (recovered l group kept ns) := by
  have hactive : dir.lookup l.active.name = some (encodeFile l.active.records) :=
    h.others _ (mem_append_right _ (mem_singleton_self _))
  have hothers : ∀ g ∈ pre ++ rest, dir.lookup g.name = some (encodeFile g.records) :=
    fun g hg => h.others g (mem_append_left _ hg)
  by_cases hundone : Undone group ns
  · rw [recovered, if_pos hundone]
    refine ⟨h.wf, h.disk, h.kept_undone hundone, ?_, [], tornTail_nil, by
      rw [append_nil]
      exact hactive⟩
    intro g hg
    rw [h.closed] at hg
    rcases mem_append.mp hg with hg | hg
    · rcases mem_append.mp hg with hg | hg
      · exact hothers g (mem_append_left _ hg)
      · obtain ⟨x, hhead, -, hx⟩ := hundone
        obtain ⟨gs, hgroup⟩ := List.head?_eq_some_iff.mp hhead
        refine h.old g hg ?_
        rw [h.left_eq hgroup hx]
        exact mem_map_of_mem hg
    · exact hothers g (mem_append_right _ hg)
  · rw [recovered, if_neg hundone]
    obtain ⟨hclosed, hwf⟩ := compactGroup_spec h.wf h.closed h.ne h.sub
    refine ⟨hwf, fun g hg => ?_, h.kept_replaced hundone, fun g hg => ?_, [], tornTail_nil, ?_⟩
    · rw [h.files_compactGroup] at hg
      simp only [List.append_assoc, cons_append, mem_append, mem_cons] at hg
      rcases hg with hg | rfl | hg | hg
      · exact h.disk g (by rw [files, h.closed]; simp [hg])
      · exact h.onDisk_new
      · exact h.disk g (by rw [files, h.closed]; simp [hg])
      · exact h.disk g (mem_append_right _ (by simpa using hg))
    · rw [hclosed] at hg
      simp only [mem_append, mem_cons] at hg
      rcases hg with hg | rfl | hg
      · exact hothers g (mem_append_left _ hg)
      · exact h.new
      · exact hothers g (mem_append_right _ hg)
    · rw [append_nil]
      exact hactive

end

end Replacing

/-! ## A commit that is cut short -/

theorem take_numberFrom (first k : Nat) (batch : List LogRecord) :
    (numberFrom first batch).take k = numberFrom first (batch.take k) := by
  induction batch generalizing first k with
  | nil => simp [numberFrom]
  | cons r batch ih => cases k <;> simp [numberFrom, ih]

/-- The number of records that the first `written` bytes hold whole. -/
def wholeRecords (written : Nat) (rs : List (Nat × LogRecord)) : Nat :=
  ((spansFrom 0 rs).filter fun s => decide (s.offset + s.length ≤ written)).length

/-- Records cut short after some bytes: those that are whole, and a torn tail. -/
theorem exists_tail {rs : List (Nat × LogRecord)} (hrs : ∀ r ∈ rs, Storable r) (written : Nat) :
    ∃ tail, (rs.flatMap write).take written =
      (rs.take (wholeRecords written rs)).flatMap write ++ tail ∧ TornTail tail := by
  let stop : Nat × Located → Nat := fun f => (spanAt f).offset + (spanAt f).length
  have hstop : ∀ p r, stop (p, located r) = p + (write r).length := by
    intro p r
    simp [stop, spanAt, located, write_eq, Nat.add_assoc]
  obtain ⟨k, tail, hcut, htail, hleft⟩ := Framing.exists_cut_layout hstop rs hrs 0 written
  refine ⟨tail, ?_, htail⟩
  have hwhole : wholeRecords written rs = (rs.take k).length := by
    have hlen := congrArg List.length hleft
    rw [Framing.length_layout, Nat.zero_add] at hlen
    rw [← hlen, wholeRecords, spansFrom, List.filter_map, List.length_map]
    rfl
  have htake : rs.take (wholeRecords written rs) = rs.take k := by
    rw [hwhole, List.length_take, List.take_eq_take_iff]
    omega
  rw [hcut, htake]

theorem FilesystemLog.WF.closed_name_ne (hwf : l.WF) {g : LogFile}
    (hg : g ∈ l.closed) : g.name ≠ l.active.name := by
  intro heq
  have hfirst := congrArg FileName.first heq
  rw [g.first_name, l.active.first_name] at hfirst
  have := hwf.closed.of_mem hg
  omega

theorem name_published (hwf : l.WF) (batch : List LogRecord) :
    (l.published batch).active.name = l.active.name := by
  simp only [name, published, hwf.dense]
  rfl

variable {batch : List LogRecord}

theorem onDisk_published (hwf : l.WF) (h : l.active.OnDisk)
    (hbatch : ∀ r ∈ numberFrom (l.lastRevision + 1) batch, Storable r) :
    (l.published batch).active.OnDisk := by
  refine ⟨(wf_published hwf batch).active, fun r hr => ?_, ?_⟩
  · rcases mem_append.mp hr with hr | hr
    · exact h.storable r hr
    · exact hbatch r hr
  · have hsize := h.size
    rw [length_encodeFile] at hsize ⊢
    show l.active.size + appendedSize _ = header.length + appendedSize (_ ++ _)
    rw [hsize, appendedSize, appendedSize, appendedSize, map_append, List.sum_append,
      Nat.add_assoc]

/-- Rotation of a log whose active file has records. -/
theorem rotate_eq (hne : l.active.records ≠ []) :
    l.rotate = { l with
      closed := l.closed ++ [l.active]
      active := newActiveFile l.lastRevision } := by
  have hcount : l.active.count ≠ 0 := fun h0 => hne (List.length_eq_zero_iff.mp h0)
  rw [rotate, if_neg hcount]

theorem onDisk_newActiveFile (lastRevision : Nat) : (newActiveFile lastRevision).OnDisk := by
  refine ⟨wf_newActiveFile _, fun r hr => ?_, ?_⟩
  · cases hr
  · rw [length_encodeFile]
    rfl

/-- Every file of a directory is kept or covered by one that is. -/
theorem keepFiles_covers : ∀ (prev : Option FileName) {n : FileName}, n ∈ ns →
    n ∈ keepFiles prev ns ∨
      ∃ p, (prev = some p ∨ p ∈ keepFiles prev ns) ∧ p.supersedes n.first = true := by
  induction ns with
  | nil => exact fun _ _ h => absurd h not_mem_nil
  | cons m ns ih =>
    intro prev n hn
    rw [keepFiles]
    split
    · next hdrop =>
      rcases mem_cons.mp hn with rfl | hn
      · cases prev with
        | none => cases hdrop
        | some p => exact Or.inr ⟨p, Or.inl rfl, hdrop⟩
      · exact ih prev hn
    · rcases mem_cons.mp hn with rfl | hn
      · exact Or.inl mem_cons_self
      · rcases ih (some m) hn with hkept | ⟨p, hp | hp, hsup⟩
        · exact Or.inl (mem_cons_of_mem _ hkept)
        · refine Or.inr ⟨p, Or.inr ?_, hsup⟩
          rw [← Option.some.inj hp]
          exact mem_cons_self
        · exact Or.inr ⟨p, Or.inr (mem_cons_of_mem _ hp), hsup⟩

/-- A last file that none covers is kept. -/
theorem keepFiles_concat : ∀ {prev : Option FileName},
    (∀ p, prev = some p ∨ p ∈ keepFiles prev ns → p.supersedes n.first = false) →
      keepFiles prev (ns ++ [n]) = keepFiles prev ns ++ [n] := by
  induction ns with
  | nil =>
    intro prev h
    show keepFiles prev [n] = [n]
    rw [keepFiles, if_neg]
    · rfl
    · cases prev with
      | none => simp
      | some p => simp [h p (Or.inl rfl)]
  | cons m ns ih =>
    intro prev h
    rw [keepFiles] at h
    rw [cons_append, keepFiles, keepFiles]
    split at h
    · next hdrop =>
      rw [if_pos hdrop, if_pos hdrop]
      exact ih h
    · next hkeep =>
      rw [if_neg hkeep, if_neg hkeep, cons_append, ih]
      rintro p (hp | hp)
      · exact h p (Or.inr (Option.some.inj hp ▸ mem_cons_self))
      · exact h p (Or.inr (mem_cons_of_mem _ hp))

theorem LogFile.supersedes_iff {g : LogFile} {revision : Nat} :
    g.name.supersedes revision = true ↔
      g.sparse = true ∧ g.first ≤ revision ∧ revision ≤ g.last := by
  unfold name
  split
  · next h => simp [FileName.supersedes, h]
  · next h => simp [FileName.supersedes, h]

namespace Recovers

variable {dir : Dir} {b : FilesystemLog}
variable {n : FileName}

section

variable (h : Recovers dir b)
include h

/-- No file of the directory starts behind the active one. -/
theorem first_le (hn : n ∈ dir) : n.first ≤ b.active.first := by
  have hactive : ∀ g ∈ b.files, g.first ≤ b.active.first := fun g hg => by
    rcases mem_append.mp hg with hg | hg
    · have := h.wf.closed.of_mem hg
      omega
    · rw [mem_singleton.mp hg]
  rcases keepFiles_covers none (mem_names.mpr hn) with hkept | ⟨p, hp | hp, hsup⟩
  · rw [h.kept] at hkept
    obtain ⟨g, hg, rfl⟩ := mem_map.mp hkept
    rw [g.first_name]
    exact hactive g hg
  · cases hp
  · rw [h.kept] at hp
    obtain ⟨g, hg, rfl⟩ := mem_map.mp hp
    obtain ⟨hsparse, -, hle⟩ := supersedes_iff.mp hsup
    rcases mem_append.mp hg with hg | hg
    · have := h.wf.closed.of_mem hg
      omega
    · rw [mem_singleton.mp hg, h.wf.dense] at hsparse
      cases hsparse

theorem active_mem : b.active.name ∈ dir := by
  obtain ⟨tail, -, hdata⟩ := h.active
  exact mem_iff_lookup.mpr ⟨_, hdata⟩

section

variable (hactive : dir.lookup b.active.name = some (encodeFile b.active.records))
include hactive

/-- Records and a torn tail are appended to the active file. -/
theorem append (hbatch : ∀ r ∈ numberFrom (b.lastRevision + 1) batch, Storable r) {tail : Bytes}
    (htail : TornTail tail) :
    Recovers (DiskLog.appendTo dir b.active.name
      ((numberFrom (b.lastRevision + 1) batch).flatMap write ++ tail)) (b.published batch) := by
  have hname := name_published h.wf batch
  have hwf := wf_published h.wf batch
  refine ⟨hwf, fun g hg => ?_, ?_, fun g hg => ?_, tail, htail, ?_⟩
  · rcases mem_append.mp hg with hg | hg
    · exact h.disk g (mem_append_left _ hg)
    · rw [mem_singleton.mp hg]
      exact onDisk_published h.wf
        (h.disk b.active (mem_append_right _ (mem_singleton_self _))) hbatch
  · rw [DiskLog.appendTo, names_insert_of_mem h.active_mem, h.kept, files,
      files, map_append, map_append, map_singleton, map_singleton,
      hname]
    rfl
  · rw [DiskLog.appendTo, AList.lookup_insert_ne (h.wf.closed_name_ne hg)]
    exact h.closed g hg
  · rw [hname, DiskLog.appendTo, AList.lookup_insert, hactive]
    simp [encodeFile, published]

/-- A batch that is cut short after some bytes: the records that end there are left, and a torn
tail. -/
theorem cut (hbatch : ∀ r ∈ numberFrom (b.lastRevision + 1) batch, Storable r) (written : Nat) :
    Recovers (DiskLog.appendTo dir b.active.name
      (((numberFrom (b.lastRevision + 1) batch).flatMap write).take written))
        (b.published (batch.take
          (wholeRecords written (numberFrom (b.lastRevision + 1) batch)))) := by
  obtain ⟨tail, hcut, htail⟩ := exists_tail hbatch written
  rw [take_numberFrom] at hcut
  rw [hcut]
  refine h.append hactive (fun r hr => hbatch r ?_) htail
  rw [← take_numberFrom] at hr
  exact List.mem_of_mem_take hr

end

section

variable (hne : b.active.records ≠ [])
include hne

/-- The name of the next active file, once the active file is not empty. -/
theorem first_lt_fresh (hn : n ∈ dir) : n.first < b.lastRevision + 1 := by
  have hfirst := h.first_le hn
  have hend : b.active.last + 1 = b.active.first + b.active.records.length :=
    (h.wf.active.dense h.wf.dense).2
  have hlast := h.wf.last
  have hpos : 0 < b.active.records.length := List.length_pos_of_ne_nil hne
  omega

/-- The next active file joins the listing, whatever it holds. -/
theorem kept_fresh (data : Bytes) :
    keepFiles none (names (dir.insert (.dense (b.lastRevision + 1)) data)) =
      b.files.map name ++ [.dense (b.lastRevision + 1)] := by
  have hbehind : ∀ m ∈ dir, m.first < (FileName.dense (b.lastRevision + 1)).first :=
    fun m hm => h.first_lt_fresh hne hm
  rw [names_insert_last hbehind, keepFiles_concat, h.kept]
  rintro p (hp | hp)
  · cases hp
  · rw [h.kept] at hp
    obtain ⟨g, hg, rfl⟩ := mem_map.mp hp
    rw [← Bool.not_eq_true, supersedes_iff]
    rintro ⟨-, -, hle⟩
    simp only [FileName.first] at hle
    have hlast := h.wf.last
    rcases mem_append.mp hg with hg | hg
    · have := h.wf.closed.of_mem hg
      have := h.wf.active_first
      omega
    · rw [mem_singleton.mp hg] at hle
      omega

theorem lookup_fresh (data : Bytes) (hn : n ∈ dir) :
    (dir.insert (.dense (b.lastRevision + 1)) data).lookup n = dir.lookup n := by
  refine AList.lookup_insert_ne fun heq => ?_
  have := h.first_lt_fresh hne hn
  rw [heq] at this
  exact lt_irrefl _ this

end

/-- The next active file is created with its header. -/
theorem create (hactive : dir.lookup b.active.name = some (encodeFile b.active.records))
    (hne : b.active.records ≠ []) :
    Recovers (dir.insert (.dense (b.lastRevision + 1)) header) b.rotate := by
  have hrotate := rotate_eq hne
  have hwf := wf_rotate h.wf
  refine ⟨hwf, fun g hg => ?_, ?_, fun g hg => ?_, [], tornTail_nil, ?_⟩
  · rw [files, hrotate] at hg
    rcases mem_append.mp hg with hg | hg
    · exact h.disk g hg
    · rw [mem_singleton.mp hg]
      exact onDisk_newActiveFile _
  · rw [h.kept_fresh hne, hrotate, files, files]
    simp [name, newActiveFile]
  · rw [hrotate] at hg
    rcases mem_append.mp hg with hg | hg
    · have hmem : g.name ∈ dir := mem_iff_lookup.mpr ⟨_, h.closed g hg⟩
      rw [h.lookup_fresh hne _ hmem]
      exact h.closed g hg
    · rw [mem_singleton.mp hg, h.lookup_fresh hne _ h.active_mem]
      exact hactive
  · rw [hrotate]
    exact AList.lookup_insert _

end

end Recovers

/-! ## A directory that cannot be opened -/

/-- A file that is listed is not a log file: the header of the newest file was cut short. -/
def Dead (dir : Dir) : Prop :=
  ∃ n ∈ keepFiles none dir.names, ∃ e, scan ((dir.lookup n).getD []) = .error e

/-- The next active file is created without its whole header. -/
theorem Recovers.dead {b : FilesystemLog} (h : Recovers dir b)
    (hne : b.active.records ≠ []) {data : Bytes} (hshort : data.length < header.length) :
    Dead (dir.insert (.dense (b.lastRevision + 1)) data) := by
  refine ⟨.dense (b.lastRevision + 1), ?_, .badHeader, ?_⟩
  · rw [h.kept_fresh hne]
    exact mem_append_right _ (mem_singleton_self _)
  · rw [AList.lookup_insert]
    exact scan_short hshort

/-- Removing files that are not listed changes nothing in the listing. -/
theorem kept_removeAll (hns : ∀ n ∈ ns, n ∉ keepFiles none dir.names) :
    keepFiles none (dir.removeAll ns).names = keepFiles none dir.names := by
  rw [names_removeAll]
  refine keepFiles_filter fun n hn => ?_
  simp only [decide_eq_true_eq]
  exact fun hin => hns n hin hn

theorem lookup_removeAll_kept (hns : ∀ n ∈ ns, n ∉ keepFiles none dir.names)
    (hn : n ∈ keepFiles none dir.names) : (dir.removeAll ns).lookup n = dir.lookup n := by
  rw [lookup_removeAll, if_neg fun hin => hns n hin hn]

theorem Dead.removeAll (h : Dead dir)
    (hns : ∀ n ∈ ns, n ∉ keepFiles none dir.names) : Dead (dir.removeAll ns) := by
  obtain ⟨n, hn, e, hscan⟩ := h
  refine ⟨n, by rwa [kept_removeAll hns], e, ?_⟩
  rwa [lookup_removeAll_kept hns hn]

theorem Recovers.removeAll {b : FilesystemLog} (h : Recovers dir b)
    (hns : ∀ n ∈ ns, n ∉ keepFiles none dir.names) : Recovers (dir.removeAll ns) b := by
  have hmem : ∀ g ∈ b.files, g.name ∈ keepFiles none dir.names := fun g hg => by
    rw [h.kept]
    exact mem_map_of_mem hg
  refine ⟨h.wf, h.disk, by rw [kept_removeAll hns, h.kept], fun g hg => ?_, ?_⟩
  · rw [lookup_removeAll_kept hns (hmem g (mem_append_left _ hg))]
    exact h.closed g hg
  · rw [lookup_removeAll_kept hns
      (hmem _ (mem_append_right _ (mem_singleton_self _)))]
    exact h.active

/-- The loop of `open` stops at the file that is not a log file, and has changed nothing. -/
theorem openFiles_bad {d : Dir} {e : ScanError} (hscan : scan ((d.lookup n).getD []) = .error e) :
    ∀ {files : List (FileName × Bool)} (want : Nat), n ∈ files.map Prod.fst →
      ∃ failure, DiskLog.openFiles d want files = (d, .error failure) := by
  intro files
  induction files with
  | nil => exact fun _ h => absurd h not_mem_nil
  | cons f files ih =>
    intro want hn
    obtain ⟨name, archived⟩ := f
    rw [DiskLog.openFiles]
    rcases mem_cons.mp hn with heq | hn
    · change n = name at heq
      subst heq
      simp only [DiskLog.openFile, hscan]
      exact ⟨_, rfl⟩
    · have hlast : files.isEmpty = false := by
        cases files with
        | nil => cases hn
        | cons _ _ => rfl
      -- A file that is not the last is never changed.
      have hsame : ∃ result, DiskLog.openFile false archived name d = (d, result) := by
        unfold DiskLog.openFile
        dsimp only
        split
        · exact ⟨_, rfl⟩
        · split
          · exact ⟨_, rfl⟩
          · exact ⟨_, rfl⟩
      obtain ⟨result, hresult⟩ := hsame
      rw [hlast, hresult]
      cases result with
      | error failure => exact ⟨failure, rfl⟩
      | ok f =>
        obtain ⟨failure, hrest⟩ := ih (f.last + 1) hn
        dsimp only
        split
        · exact ⟨_, rfl⟩
        · rw [hrest]
          exact ⟨_, rfl⟩

/-- `open` refuses the directory and leaves it unreadable. -/
theorem Dead.openLog (h : Dead dir) (opts : Options) (archiving : Bool) (archive : Dir) :
    ∃ dir' failure, DiskLog.openLog opts archiving archive dir = (dir', .error failure) ∧
      Dead dir' := by
  have hsup : ∀ n ∈ dir.names.filter (· ∉ keepFiles none dir.names),
      n ∉ keepFiles none dir.names := fun n hn => by simpa using (List.mem_filter.mp hn).2
  have hdead : Dead (listDir dir).1 := h.removeAll hsup
  obtain ⟨n, hn, e, hscan⟩ := h
  have hbad : scan (((listDir dir).1.lookup n).getD []) = .error e := by
    show scan (((dir.removeAll _).lookup n).getD []) = _
    rwa [lookup_removeAll_kept hsup hn]
  have hmem : n ∈ (listDir dir).2 := hn
  have hne : (listDir dir).2 ≠ [] := List.ne_nil_of_mem hmem
  unfold DiskLog.openLog
  cases archiving with
  | false =>
    have hin : n ∈ ((listDir dir).2.map fun n => (n, false)).map Prod.fst := by
      simpa [map_map] using hmem
    obtain ⟨failure, hopen⟩ := openFiles_bad hbad 1 hin
    simp only [Bool.false_eq_true, if_false, hopen]
    exact ⟨_, _, rfl, hdead⟩
  | true =>
    simp only [if_true, DiskLog.reconcileArchive, hne, false_and, if_false]
    cases DiskLog.reconcileNames (listDir dir).2 archive.names with
    | error failure => exact ⟨_, _, rfl, hdead⟩
    | ok ops =>
      have hin : n ∈ ((listDir dir).2.map fun n => (n, decide (n ∈ archive))).map Prod.fst := by
        simpa [map_map] using hmem
      obtain ⟨failure, hopen⟩ := openFiles_bad hbad 1 hin
      simp only [hopen]
      exact ⟨_, _, rfl, hdead⟩

end CloudEtcd
