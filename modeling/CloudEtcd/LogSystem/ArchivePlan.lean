/-
# CloudEtcd.LogSystem.ArchivePlan — the archive as a line of blocks.

An archived file is the block of revisions it covers; the name of a compacted file has both ends, and
the last revision of a dense file is recorded in `ends`.  The closed files of a log form a line.  The
operations that a compaction queues, the removals and uploads that `open` queues, and the uploads of
rotated files keep the archive a line whose end never moves back (`plan_groupOps`, `plan_removals`,
`plan_uploads`).  An archive that is a line can be restored (`archived_of_line`).
-/
import CloudEtcd.Lib.Blocks
import CloudEtcd.LogSystem.Restore

namespace CloudEtcd

open FileName
open List (mem_append mem_cons mem_cons_self mem_cons_of_mem not_mem_nil)

variable {fs : List LogFile} {g : LogFile} {ends : Nat → Nat} {N : Nat} {S : Set FileName}

open LogCodec Blocks

/-! ## Blocks -/

/-- The last revision of a file, given those of the dense files. -/
def FileName.last (ends : Nat → Nat) : FileName → Nat
  | .dense a => ends a
  | .sparse _ b => b

/-- A file that rotation closed: no other file starts inside it. -/
def FileName.IsDense (n : FileName) : Prop := n.isSparse = false

/-- The archived files form a line up to a revision. -/
abbrev ArchiveLine (ends : Nat → Nat) (S : Set FileName) (last : Nat) : Prop :=
  Line FileName.first (FileName.last ends) FileName.IsDense S last

/-- What an operation does to the set of archived files. -/
def ArchiverOp.act (op : ArchiverOp) (S : Set FileName) : Set FileName :=
  if op.remove then S \ {op.name} else insert op.name S

/-- The operations keep the archive a line. -/
abbrev ArchivePlan (ends : Nat → Nat) (ops : List ArchiverOp) (S : Set FileName) (M N : Nat) : Prop :=
  Plan first (last ends) FileName.IsDense ArchiverOp.act ops S M N

/-- The names of some files. -/
def namesOf (fs : List LogFile) : Set FileName := {n | ∃ g ∈ fs, g.name = n}

/-- The recorded ends are those of the files. -/
def EndsOf (ends : Nat → Nat) (fs : List LogFile) : Prop := ∀ g ∈ fs, g.name.last ends = g.last

/-- The files of a directory, with their ends. -/
def Stocked (ends : Nat → Nat) (d : Dir) (P : FileName → Prop) : Prop :=
  ∀ n ∈ d, P n → ∃ g : LogFile, g.name = n ∧ g.OnDisk ∧ g.first ≤ g.last ∧
    d.lookup n = some (encodeFile g.records) ∧ n.last ends = g.last

theorem mem_namesOf (hg : g ∈ fs) : g.name ∈ namesOf fs :=
  ⟨g, hg, rfl⟩

theorem LogFile.isDense_iff : g.name.IsDense ↔ g.sparse = false := by
  unfold LogFile.name FileName.IsDense
  split
  · next h => simp [isSparse, h]
  · next h => simp [isSparse, h]

theorem last_sparse (h : g.sparse = true) (ends : Nat → Nat) : g.name.last ends = g.last := by
  simp [LogFile.name, h, last]

/-! ## The closed files of a log -/

/-- Two files of a row are the same or apart. -/
theorem Tiled.eq_or_apart {want next : Nat} (h : Tiled want fs next) {f : LogFile} (hf : f ∈ fs)
    (hg : g ∈ fs) : f = g ∨ f.last < g.first ∨ g.last < f.first := by
  obtain ⟨pre, post, rfl⟩ := List.append_of_mem hf
  obtain ⟨mid, hpre, hfirst, -, -, hpost⟩ := tiled_append.mp h
  rcases mem_append.mp hg with hg | hg
  · have := hpre.of_mem hg
    right; right; omega
  · rcases mem_cons.mp hg with rfl | hg
    · exact Or.inl rfl
    · have := hpost.of_mem hg
      right; left; omega

theorem Tiled.next_file {want next : Nat} (h : Tiled want fs next) (hg : g ∈ fs) :
    g.last + 1 = next ∨ ∃ f ∈ fs, f.first = g.last + 1 := by
  obtain ⟨pre, post, rfl⟩ := List.append_of_mem hg
  obtain ⟨mid, -, -, -, -, hpost⟩ := tiled_append.mp h
  cases post with
  | nil => exact Or.inl hpost
  | cons f post => exact Or.inr ⟨f, by simp, hpost.1⟩

theorem line_of_tiled {last : Nat} (h : Tiled 1 fs (last + 1)) (hends : EndsOf ends fs) :
    ArchiveLine ends (namesOf fs) last where
  bounds := by
    rintro n ⟨g, hg, rfl⟩
    rw [hends g hg, g.first_name]
    have := h.of_mem hg
    omega
  start := by
    intro hpos
    cases fs with
    | nil =>
      change 1 = last + 1 at h
      omega
    | cons g fs => exact ⟨g.name, mem_namesOf mem_cons_self, g.first_name.trans h.1⟩
  next := by
    rintro n ⟨g, hg, rfl⟩
    rw [hends g hg]
    rcases h.next_file hg with hend | ⟨f, hf, hfirst⟩
    · exact Or.inl (by omega)
    · exact Or.inr ⟨f.name, mem_namesOf hf, f.first_name.trans hfirst⟩
  whole := by
    rintro n ⟨g, hg, rfl⟩ - m ⟨f, hf, rfl⟩
    rw [hends g hg, g.first_name, f.first_name]
    have h1 := h.of_mem hg
    have h2 := h.of_mem hf
    rcases h.eq_or_apart hg hf with rfl | hlt | hlt <;> omega

/-! ## Removals -/

/-- The removal of some files, in the order of their names. -/
def removeOps (ns : List FileName) : List ArchiverOp := ns.map fun n => { name := n, remove := true }

theorem play_removeOps (ns : List FileName) (S : Set FileName) :
    play ArchiverOp.act (removeOps ns) S = {n ∈ S | n ∉ ns} := by
  induction ns generalizing S with
  | nil => simp [removeOps, play]
  | cons n ns ih =>
    change play ArchiverOp.act (removeOps ns) (S \ {n}) = _
    rw [ih]
    ext m
    constructor
    · rintro ⟨⟨hm, hne⟩, hout⟩
      exact ⟨hm, fun hin => (mem_cons.mp hin).elim hne hout⟩
    · rintro ⟨hm, hout⟩
      exact ⟨⟨hm, fun heq => hout (heq ▸ mem_cons_self)⟩,
        fun hin => hout (mem_cons_of_mem _ hin)⟩

/-- Files that others cover can be removed one after another, in order: when a file goes, those in
front of it that lie in the same cover have gone before. -/
theorem plan_removals (hline : ArchiveLine ends S N) {ns : List FileName}
    (hsorted : ns.Pairwise FileName.le)
    (hcover : ∀ x ∈ ns, ∃ f ∈ S, f ∉ ns ∧ f.first ≤ x.first ∧ x.first ≤ f.last ends ∧
      ∀ n ∈ S, n ∉ ns → n.last ends < f.first ∨ f.last ends ≤ n.last ends) :
    ArchivePlan ends (removeOps ns) S N N := by
  induction ns generalizing S with
  | nil => exact ⟨rfl, hline⟩
  | cons x ns ih =>
    obtain ⟨hhead, htail⟩ := List.pairwise_cons.mp hsorted
    obtain ⟨f, hf, hfn, hle, hlast, hapart⟩ := hcover x mem_cons_self
    have hfx : f ≠ x := fun heq => hfn (heq ▸ mem_cons_self)
    have hdrop : ArchiveLine ends (S \ {x}) N := by
      refine hline.drop (fun _ h1 => ?_) fun n hn hnx hnext => ?_
      · have := hline.bounds f hf
        exact ⟨f, hf, hfx, by omega⟩
      · by_cases hsame : f.first = x.first
        · exact ⟨f, hf, hfx, hsame⟩
        · exfalso
          by_cases hin : n ∈ ns
          · -- The file would have to stand behind `x` and end before it.
            have h1 := FileName.first_le (hhead n hin)
            have h2 := hline.bounds n hn
            omega
          · have hout : n ∉ x :: ns := fun hmem =>
              (mem_cons.mp hmem).elim (fun heq => hnx heq) hin
            rcases hapart n hn hout with hlt | hge <;> omega
    refine ⟨hline, N, le_rfl, ?_⟩
    refine ih hdrop htail fun y hy => ?_
    obtain ⟨f, hf, hfn, hle, hlast, hapart⟩ := hcover y (mem_cons_of_mem _ hy)
    have hfx : f ≠ x := fun heq => hfn (heq ▸ mem_cons_self)
    refine ⟨f, ⟨hf, hfx⟩, fun hin => hfn (mem_cons_of_mem _ hin), hle, hlast,
      fun n hn hout => hapart n hn.1 fun hmem => ?_⟩
    rcases mem_cons.mp hmem with heq | hin
    · exact hn.2 heq
    · exact hout hin

/-! ## The operations of a compaction -/

theorem play_upload (op : ArchiverOp) (hop : op.remove = false) (S : Set FileName) :
    op.act S = insert op.name S := by
  rw [ArchiverOp.act, hop]
  rfl

/-- The operations that replace a group keep the archive a line up to the same end. -/
theorem plan_groupOps {l : FilesystemLog} {pre group rest : List LogFile}
    {kept : List (Nat × LogRecord)} (hwf : l.WF) (hN : l.active.first = N + 1)
    (hclosed : l.closed = pre ++ group ++ rest) (hne : group ≠ [])
    (hsub : kept.Sublist (group.flatMap LogFile.records)) (hends : EndsOf ends l.closed) :
    ArchivePlan ends (groupOps group kept) (namesOf l.closed) N N ∧
      play ArchiverOp.act (groupOps group kept) (namesOf l.closed) =
        namesOf (l.compactGroup group kept).closed := by
  set new := FilesystemLog.compactedFile group kept with hnew
  have htiled : Tiled 1 l.closed (N + 1) := hN ▸ hwf.closed
  have hline := line_of_tiled htiled hends
  obtain ⟨a, b, hpre, hgroup, hrest⟩ := hN ▸ hwf.split hclosed
  obtain ⟨hfirst, hle, -, hend⟩ := FilesystemLog.tiled_compactedFile hgroup hne hsub
  change new.first = a at hfirst
  change new.first ≤ new.last at hle
  change new.last + 1 = b at hend
  have hnewLast : new.name.last ends = new.last := last_sparse rfl ends
  have hnewFirst : new.name.first = new.first := new.first_name
  -- A closed file is one of the group or lies outside of the new block.
  have hsplit : ∀ g ∈ l.closed, g ∈ group ∨ g.last < new.first ∨ new.last < g.first := by
    intro g hg
    rw [hclosed] at hg
    simp only [mem_append] at hg
    rcases hg with (hg | hg) | hg
    · have := hpre.of_mem hg
      right; left; omega
    · exact Or.inl hg
    · have := hrest.of_mem hg
      right; right; omega
  -- A file of the group that stays has the name of the new file.
  have hstays : ∀ g ∈ group, g.name ∉ replacedNames group kept → g.name = new.name := by
    intro g hg hout
    by_contra hne'
    exact hout (mem_replacedNames.mpr ⟨⟨g, hg, rfl⟩, hne'⟩)
  have hadd : ArchiveLine ends (insert new.name (namesOf l.closed)) N := by
    have hprele := hpre.le
    have hrestle := hrest.le
    refine hline.add_over ?_ ?_ ?_ ?_ ?_ ?_
    · rw [hnewFirst]; omega
    · rw [hnewFirst, hnewLast]; exact hle
    · rw [hnewLast]; omega
    · rw [hnewLast]
      cases rest with
      | nil =>
        change b = N + 1 at hrest
        exact Or.inl (by omega)
      | cons g rest =>
        refine Or.inr ⟨g.name, mem_namesOf (by rw [hclosed]; simp), ?_⟩
        rw [g.first_name, hrest.1]
        exact hend.symm
    · rw [LogFile.isDense_iff]
      exact Bool.noConfusion
    · rintro n ⟨g, hg, rfl⟩ -
      rw [g.first_name, hends g hg, hnewFirst]
      rcases hsplit g hg with hin | hlt | hlt
      · have := hgroup.of_mem hin
        omega
      · omega
      · have := htiled.of_mem hg
        omega
  have hsorted : (replacedNames group kept).Pairwise le :=
    ((names_precede_of_ascending (group_ascends hwf hclosed)).imp And.left).sublist
      List.filter_sublist
  have hremovals : ArchivePlan ends (removeOps (replacedNames group kept))
      (insert new.name (namesOf l.closed)) N N := by
    refine plan_removals hadd hsorted fun x hx => ?_
    obtain ⟨⟨g, hg, rfl⟩, -⟩ := mem_replacedNames.mp hx
    have hrange := hgroup.of_mem hg
    refine ⟨new.name, Set.mem_insert _ _, fun hin => (mem_replacedNames.mp hin).2 rfl, ?_, ?_,
      fun n hn hout => ?_⟩
    · rw [hnewFirst, g.first_name]; omega
    · rw [hnewLast, g.first_name]; omega
    · rcases hn with rfl | ⟨f, hf, rfl⟩
      · exact Or.inr le_rfl
      · rw [hends f hf, hnewFirst, hnewLast]
        rcases hsplit f hf with hin | hlt | hlt
        · have hlast := congrArg (FileName.last ends) (hstays f hin hout)
          rw [hends f hf, hnewLast] at hlast
          exact Or.inr (by omega)
        · exact Or.inl hlt
        · have := htiled.of_mem hf
          exact Or.inr (by omega)
  refine ⟨⟨hline, N, le_rfl, hremovals⟩, ?_⟩
  show play ArchiverOp.act (removeOps (replacedNames group kept))
    (insert new.name (namesOf l.closed)) = _
  rw [play_removeOps, (FilesystemLog.compactGroup_spec hwf hclosed hne hsub).1]
  ext n
  constructor
  · rintro ⟨hn, hout⟩
    rcases hn with rfl | ⟨g, hg, rfl⟩
    · exact mem_namesOf (by simp [hnew])
    · rcases hsplit g hg with hin | hor
      · rw [hstays g hin hout]
        exact mem_namesOf (by simp [hnew])
      · refine mem_namesOf ?_
        rw [hclosed] at hg
        simp only [mem_append, mem_cons] at hg ⊢
        rcases hg with (hg | hg) | hg
        · exact Or.inl hg
        · have := hgroup.of_mem hg
          omega
        · exact Or.inr (Or.inr hg)
  · rintro ⟨g, hg, rfl⟩
    simp only [mem_append, mem_cons] at hg
    -- A file outside of the group starts before or after it.
    have hother : (g ∈ l.closed ∧ (g.first < a ∨ b ≤ g.first)) →
        g.name ∈ insert new.name (namesOf l.closed) ∧ g.name ∉ replacedNames group kept := by
      rintro ⟨hin, hout⟩
      refine ⟨Set.mem_insert_of_mem _ (mem_namesOf hin), fun hrep => ?_⟩
      obtain ⟨⟨f, hf, hname⟩, -⟩ := mem_replacedNames.mp hrep
      have hfirst := hgroup.of_mem hf
      rw [← f.first_name, hname, g.first_name] at hfirst
      omega
    rcases hg with hg | rfl | hg
    · have := hpre.of_mem hg
      exact hother ⟨by rw [hclosed]; simp [hg], by omega⟩
    · exact ⟨Set.mem_insert _ _, fun hin => (mem_replacedNames.mp hin).2 rfl⟩
    · have := hrest.of_mem hg
      exact hother ⟨by rw [hclosed]; simp [hg], by omega⟩

/-! ## Uploads in order -/

/-- The upload of some files. -/
def uploadOps (fs : List LogFile) : List ArchiverOp := fs.map fun g => { name := g.name }

theorem play_uploadOps (fs : List LogFile) (S : Set FileName) :
    play ArchiverOp.act (uploadOps fs) S = S ∪ namesOf fs := by
  induction fs generalizing S with
  | nil => simp [uploadOps, play, namesOf]
  | cons g fs ih =>
    change play ArchiverOp.act (uploadOps fs) (insert g.name S) = _
    rw [ih]
    ext n
    constructor
    · rintro ((rfl | hn) | ⟨x, hx, rfl⟩)
      · exact Or.inr (mem_namesOf mem_cons_self)
      · exact Or.inl hn
      · exact Or.inr (mem_namesOf (mem_cons_of_mem _ hx))
    · rintro (hn | ⟨x, hx, rfl⟩)
      · exact Or.inl (Or.inr hn)
      · rcases mem_cons.mp hx with rfl | hx
        · exact Or.inl (Or.inl rfl)
        · exact Or.inr (mem_namesOf hx)

/-- Files that follow the archived ones are uploaded in order. -/
theorem plan_uploads (hends : EndsOf ends fs) :
    ∀ {S : Set FileName} {M : Nat}, ArchiveLine ends S M → Tiled (M + 1) fs (N + 1) →
      ArchivePlan ends (uploadOps fs) S M N := by
  induction fs with
  | nil =>
    intro S M hline htiled
    change M + 1 = N + 1 at htiled
    obtain rfl : M = N := by omega
    exact ⟨rfl, hline⟩
  | cons g fs ih =>
    intro S M hline htiled
    obtain ⟨hfirst, hle, -, hrest⟩ := htiled
    have hlast := hends g mem_cons_self
    have hadd : ArchiveLine ends (insert g.name S) g.last := by
      rw [← hlast]
      refine hline.add_end (g.first_name.trans hfirst) ?_
      rw [hlast, g.first_name]
      exact hle
    exact ⟨hline, g.last, by omega,
      ih (fun x hx => hends x (mem_cons_of_mem _ hx)) hadd hrest⟩

/-- An archive that has only closed files has the first ones. -/
theorem archived_first {M : Nat} (hline : ArchiveLine ends S M) :
    ∀ {want : Nat}, Tiled want fs (N + 1) → EndsOf ends fs →
      (∀ n ∈ S, want ≤ n.first → n ∈ namesOf fs) →
      (want = M + 1 ∨ ∃ n ∈ S, n.first = want) →
      ∃ fs₁ fs₂, fs = fs₁ ++ fs₂ ∧ Tiled (M + 1) fs₂ (N + 1) ∧ (∀ g ∈ fs₁, g.name ∈ S) ∧
        ∀ g ∈ fs₂, g.name ∉ S := by
  induction fs with
  | nil =>
    intro want htiled _ hall hnext
    refine ⟨[], [], rfl, ?_, fun g hg => absurd hg not_mem_nil,
      fun g hg => absurd hg not_mem_nil⟩
    rcases hnext with rfl | ⟨n, hn, hfirst⟩
    · exact htiled
    · obtain ⟨g, hg, -⟩ := hall n hn (by omega)
      cases hg
  | cons g fs ih =>
    intro want htiled hends hall hnext
    have htiled' := htiled
    obtain ⟨hfirst, hle, hwf, hrest⟩ := htiled'
    by_cases hin : ∃ n ∈ S, n.first = want
    · obtain ⟨n, hn, hnfirst⟩ := hin
      have hname : n = g.name := by
        obtain ⟨x, hx, rfl⟩ := hall n hn (by omega)
        rcases mem_cons.mp hx with rfl | hx
        · rfl
        · have := hrest.of_mem hx
          rw [x.first_name] at hnfirst
          omega
      subst hname
      have hlast := hends g mem_cons_self
      have hall' : ∀ m ∈ S, g.last + 1 ≤ m.first → m ∈ namesOf fs := by
        intro m hm hge
        obtain ⟨x, hx, rfl⟩ := hall m hm (by omega)
        rcases mem_cons.mp hx with rfl | hx
        · rw [x.first_name] at hge
          omega
        · exact mem_namesOf hx
      have hnext' : g.last + 1 = M + 1 ∨ ∃ m ∈ S, m.first = g.last + 1 := by
        rcases hline.next _ hn with hend | hfollow
        · exact Or.inl (by omega)
        · exact Or.inr (hlast ▸ hfollow)
      obtain ⟨fs₁, fs₂, rfl, htail, h1, h2⟩ := ih hrest
        (fun x hx => hends x (mem_cons_of_mem _ hx)) hall' hnext'
      refine ⟨g :: fs₁, fs₂, rfl, htail, fun x hx => ?_, h2⟩
      rcases mem_cons.mp hx with rfl | hx
      · exact hn
      · exact h1 x hx
    · have hwant : want = M + 1 := hnext.resolve_right hin
      refine ⟨[], g :: fs, rfl, hwant ▸ htiled, fun x hx => absurd hx not_mem_nil,
        fun x hx hS => ?_⟩
      have h1 := hline.bounds _ hS
      have h2 := htiled.of_mem hx
      rw [x.first_name] at h1
      omega

/-! ## Restoring a line -/

/-- The listing of a line keeps a row of files. -/
theorem keepFiles_line {archive : Dir} (hline : ArchiveLine ends S N)
    (hstock : Stocked ends archive fun _ => True) (hmem : ∀ n ∈ S, n ∈ archive) {ns : List FileName} :
    ∀ {prev : Option FileName} {want : Nat}, ns.Pairwise le → ns.Nodup →
      (∀ n ∈ ns, n ∈ S) → (∀ n ∈ S, want ≤ n.first → n ∈ ns) → Below prev want →
      (∀ n ∈ ns, n.first < want → prev.any (·.supersedes n.first) = true) →
      (want = N + 1 ∨ ∃ n ∈ S, n.first = want) →
      ∃ fs, keepFiles prev ns = fs.map LogFile.name ∧ Tiled want fs (N + 1) ∧
        (∀ g ∈ fs, g.OnDisk) ∧ Holds archive fs := by
  induction ns with
  | nil =>
    intro prev want _ _ _ hall _ _ hnext
    refine ⟨[], rfl, ?_, fun g hg => absurd hg not_mem_nil,
      fun g hg => absurd hg not_mem_nil⟩
    rcases hnext with rfl | ⟨n, hn, hfirst⟩
    · rfl
    · exact absurd (hall n hn (by omega)) not_mem_nil
  | cons n ns ih =>
    intro prev want hsorted hnodup hsub hall hbelow hlow hnext
    obtain ⟨hhead, htail⟩ := List.pairwise_cons.mp hsorted
    obtain ⟨hnot, hnodup'⟩ := List.nodup_cons.mp hnodup
    have hsub' : ∀ m ∈ ns, m ∈ S := fun m hm => hsub m (mem_cons_of_mem _ hm)
    have hlater : ∀ {bound : Nat}, n.first < bound → (∀ m ∈ S, want ≤ m.first → m ∈ n :: ns) →
        want ≤ bound → ∀ m ∈ S, bound ≤ m.first → m ∈ ns := by
      intro bound hlt hall hle m hm hge
      rcases mem_cons.mp (hall m hm (by omega)) with rfl | hin
      · omega
      · exact hin
    by_cases hdrop : n.first < want
    · rw [keepFiles, if_pos (hlow n mem_cons_self hdrop)]
      exact ih htail hnodup' hsub' (hlater hdrop hall le_rfl) hbelow
        (fun m hm => hlow m (mem_cons_of_mem _ hm)) hnext
    · -- The next file of the row comes first among those that are left.
      have hnS := hsub n mem_cons_self
      have hnext' : ∃ m ∈ S, m.first = want := by
        refine hnext.resolve_left fun heq => ?_
        have := hline.bounds n hnS
        omega
      have hfirst : n.first = want := by
        obtain ⟨m, hm, hmfirst⟩ := hnext'
        rcases mem_cons.mp (hall m hm (by omega)) with rfl | hin
        · exact hmfirst
        · have := first_le (hhead m hin)
          omega
      obtain ⟨g, hname, hdisk, hle, hdata, hlast⟩ := hstock n (hmem n hnS) trivial
      have hbounds := hline.bounds n hnS
      have hgfirst : g.first = n.first := by rw [← hname, g.first_name]
      -- A file that starts inside this one is covered by it: nothing starts inside a dense file.
      have hinside : ∀ m ∈ ns, m.first < g.last + 1 →
          (some n).any (·.supersedes m.first) = true := by
        intro m hm hlt
        have hge := first_le (hhead m hm)
        cases n with
        | sparse a b =>
          change g.first = a at hgfirst
          change b = g.last at hlast
          change a ≤ m.first at hge
          simp only [Option.any_some, supersedes, Bool.and_eq_true,
            decide_eq_true_eq]
          omega
        | dense a =>
          exfalso
          have hwhole := hline.whole _ hnS rfl m (hsub' m hm)
          change a ≤ m.first at hge
          have hsame : m.first = a := by
            by_contra hne
            exact hwhole ⟨show a < m.first by omega, by omega⟩
          have hle := hhead m hm
          cases m with
          | dense c =>
            change c = a at hsame
            subst hsame
            exact hnot hm
          | sparse c e =>
            change c = a at hsame
            change a < c at hle
            omega
      have hbelow' : Below (some n) (g.last + 1) := hname ▸ below_name g
      obtain ⟨fs, hkept, htiled, hdisks, hholds⟩ := ih htail
        hnodup' hsub' (hlater (by omega) hall (by omega)) hbelow' hinside (by
          rcases hline.next n hnS with hend | hfollow
          · exact Or.inl (by omega)
          · exact Or.inr (hlast ▸ hfollow))
      refine ⟨g :: fs, ?_, ⟨hgfirst.trans hfirst, hle, hdisk.wf, htiled⟩, fun x hx => ?_,
        fun x hx => ?_⟩
      · rw [keepFiles_keep (by rw [hfirst]; exact hbelow), hkept, List.map_cons, hname]
      · rcases mem_cons.mp hx with rfl | hx
        · exact hdisk
        · exact hdisks x hx
      · rcases mem_cons.mp hx with rfl | hx
        · rw [hname]
          exact hdata
        · exact hholds x hx

/-- The names in a directory. -/
def dirNames (d : Dir) : Set FileName := {n | n ∈ d}

/-- An archive that is a line holds a log without gaps. -/
theorem archived_of_line {archive : Dir} (hline : ArchiveLine ends (dirNames archive) N)
    (hstock : Stocked ends archive fun _ => True) : ∃ fs, Archived archive fs N := by
  obtain ⟨fs, hkept, htiled, hdisk, hholds⟩ := keepFiles_line hline hstock (fun n hn => hn)
    archive.sorted_names archive.nodup_names (fun n hn => Dir.mem_names.mp hn)
    (fun n hn _ => Dir.mem_names.mpr hn) (below_none 1)
    (fun n hn hlt => by
      have := hline.bounds n (Dir.mem_names.mp hn)
      omega)
    (by
      rcases Nat.eq_zero_or_pos N with rfl | hpos
      · exact Or.inl rfl
      · exact Or.inr (hline.start hpos))
  exact ⟨fs, hkept, htiled, hdisk, hholds⟩

end CloudEtcd
