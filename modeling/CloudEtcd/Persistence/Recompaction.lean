/-
# CloudEtcd.Persistence.Recompaction — compacting what has just been compacted.

`Compact` fills a group until the next file would take it over `RotateBytes`; a group without live bytes is
never closed.  So a group that was closed has live bytes, and together with the group after it, which starts
with the file that did not fit, it has more than `RotateBytes` (`groups_apart`).  A second `Compact` measures
for each group the same live bytes in the one file that came of it, so it groups every file alone
(`groups_alone`).  A file that was rewritten has no dead records any more, and one that was left alone has as
many as before.
-/
import CloudEtcd.Lib.Transition
import CloudEtcd.Persistence.PointReads

namespace CloudEtcd

open LogCodec IndexFile
open List (cons_append map_cons append_assoc mem_cons_of_mem mem_cons_self map_append mem_map_of_mem
  mem_append mem_append_right mem_append_left mem_map not_mem_nil mem_singleton mem_cons)

/-- The first revisions and the last revisions of the files ascend. -/
def InRow (fs : List IndexFile) : Prop :=
  fs.Pairwise fun f g => f.first < g.first ∧ f.last < g.last

instance (fs : List IndexFile) : Decidable (InRow fs) :=
  inferInstanceAs (Decidable (fs.Pairwise fun f g => f.first < g.first ∧ f.last < g.last))

theorem IndexFile.first_name (f : IndexFile) : f.name.first = f.first := by
  unfold name
  split <;> rfl

namespace DiskLog

variable {live : FilesystemLog.LiveFunc} {d d' : Dir} {f : IndexFile}
variable {m : Measured} {kept : List (Nat × Bytes)} {ms : List Measured} {g : Group}
  {l l' : DiskLog}

/-! ## Measuring -/

/-- What is measured depends on the file's own content. -/
theorem liveRecords_congr (h : d.lookup f.name = d'.lookup f.name) :
    liveRecords d live f = liveRecords d' live f := by
  simp only [liveRecords, load, fileData, h]

theorem measure_congr (h : d.lookup f.name = d'.lookup f.name) :
    measure d live f = measure d' live f := by
  simp only [measure, liveRecords_congr h]

theorem measure_spec (h : measure d live f = .ok m) :
    m.file = f ∧ ∃ kept, liveRecords d live f = .ok (kept, m.dead) ∧
      m.liveBytes = (kept.map fun r => r.2.length + 4).sum := by
  unfold measure at h
  split at h
  · cases h
  · next kept dead hlive =>
    cases h
    exact ⟨rfl, kept, hlive, rfl⟩

/-- What was kept is kept again. -/
theorem keepLive_kept {rs : List (Nat × Bytes)} {dead : Nat}
    (h : keepLive live rs = .ok (kept, dead)) : keepLive live kept = .ok (kept, 0) := by
  induction rs generalizing kept dead with
  | nil =>
    cases h
    rfl
  | cons r rs ih =>
    obtain ⟨revision, m⟩ := r
    rw [keepLive] at h
    split at h
    · cases h
    · next events hdecode =>
      split at h
      · cases h
      · next isLive hany =>
        split at h
        · cases h
        · next kept' dead' hrest =>
          have htail := ih hrest
          split at h
          · next hlive =>
            cases h
            subst hlive
            simp only [keepLive, hdecode, hany, htail, if_true]
          · cases h
            exact htail

theorem keepLive_append {rs rs' kept' : List (Nat × Bytes)} (h : keepLive live rs = .ok (kept, 0))
    (h' : keepLive live rs' = .ok (kept', 0)) :
    keepLive live (rs ++ rs') = .ok (kept ++ kept', 0) := by
  induction rs generalizing kept with
  | nil =>
    cases h
    exact h'
  | cons r rs ih =>
    obtain ⟨revision, m⟩ := r
    rw [keepLive] at h
    split at h
    · cases h
    · next events hdecode =>
      split at h
      · cases h
      · next isLive hany =>
        split at h
        · cases h
        · next kept₁ dead₁ hrest =>
          split at h
          · next hlive =>
            obtain ⟨rfl, rfl⟩ := Prod.mk.inj (Except.ok.inj h)
            subst hlive
            rw [cons_append, keepLive]
            simp only [hdecode, hany, ih hrest, if_true, cons_append]
          · obtain ⟨-, hdead⟩ := Prod.mk.inj (Except.ok.inj h)
            cases hdead

/-! ## The new file of a group -/

/-- The spans lead to the messages that were written. -/
theorem bytes_writeAll (before after : Bytes) (rs : List (Nat × Bytes)) :
    (writeAll before.length rs).2.map
        (fun s => s.bytes (before ++ ((writeAll before.length rs).1 ++ after))) = rs.map Prod.snd := by
  induction rs generalizing before with
  | nil => rfl
  | cons r rs ih =>
    obtain ⟨revision, m⟩ := r
    have hrest := ih (before ++ (appendVarint m.length ++ m))
    rw [List.length_append] at hrest
    rw [writeAll, map_cons, map_cons]
    congr 1
    · have hoffset : before.length + (appendVarint m.length ++ m).length - m.length =
          (before ++ appendVarint m.length).length := by
        simp only [List.length_append]
        omega
      have hdata : before ++ (((appendVarint m.length ++ m) ++
          (writeAll (before.length + (appendVarint m.length ++ m).length) rs).1) ++ after) =
          (before ++ appendVarint m.length) ++
            (m ++ ((writeAll (before.length + (appendVarint m.length ++ m).length) rs).1 ++ after)) := by
        simp only [append_assoc]
      rw [Span.bytes, hoffset, hdata, List.drop_left, List.take_left]
    · rw [← hrest]
      simp [append_assoc]

theorem length_writeAll (size : Nat) (rs : List (Nat × Bytes)) :
    (writeAll size rs).2.length = rs.length := by
  induction rs generalizing size with
  | nil => rfl
  | cons r rs ih =>
    obtain ⟨revision, m⟩ := r
    rw [writeAll, List.length_cons, List.length_cons, ih]

/-- The index entry of the new file leads to the records that were written. -/
theorem encodedRecords_compactedFile (group : List IndexFile) (kept : List (Nat × Bytes)) :
    encodedRecords (compactedFile group kept).1 (compactedFile group kept).2 = kept := by
  have hbytes := bytes_writeAll header [] kept
  rw [List.append_nil] at hbytes
  have hlen := length_writeAll header.length kept
  refine List.ext_getElem (by simp [encodedRecords, compactedFile, hlen]) fun i h1 h2 => ?_
  have hrev : (compactedFile group kept).1.revisionAt i = kept[i].1 := by
    have hne : kept ≠ [] := List.ne_nil_of_length_pos (by omega)
    obtain ⟨x, xs, rfl⟩ := List.exists_cons_of_ne_nil hne
    show ((x :: xs).map Prod.fst).getD i 0 = _
    rw [List.getD_eq_getElem?_getD, List.getElem?_map, List.getElem?_eq_getElem h2]
    rfl
  have hspan : i < (writeAll header.length kept).2.length := by omega
  have hmessage : ((writeAll header.length kept).2[i]).bytes (header ++ (writeAll header.length kept).1) =
      kept[i].2 := by
    have hi := congrArg (fun l => l[i]?) hbytes
    simpa [hspan, h2] using hi
  simp only [encodedRecords, List.getElem_mapIdx]
  exact Prod.ext hrev hmessage

variable {group : List IndexFile}

/-- The new file has no dead records. -/
theorem measure_compactedFile (hlive : keepLive live kept = .ok (kept, 0))
    (hdata : d.lookup (compactedFile group kept).1.name = some (compactedFile group kept).2) :
    measure d live (compactedFile group kept).1 =
      .ok ⟨(compactedFile group kept).1, (kept.map fun r => r.2.length + 4).sum, 0⟩ := by
  have hsize : (compactedFile group kept).1.size = (compactedFile group kept).2.length := by
    simp [compactedFile]
  have hload : load d (compactedFile group kept).1 =
      .ok ((compactedFile group kept).1, (compactedFile group kept).2) := by
    rw [load, fileData, hdata]
    simp only [hsize, lt_irrefl, if_false, List.take_length]
    rfl
  have hrecords : liveRecords d live (compactedFile group kept).1 = .ok (kept, 0) := by
    rw [liveRecords, hload]
    show keepLive live (encodedRecords _ _) = _
    rw [encodedRecords_compactedFile, hlive]
  rw [measure, hrecords]

/-! ## Grouping -/

/-- The group of the measured files `ms`. -/
structure Group.Of (g : Group) (ms : List Measured) : Prop where
  files : g.files = ms.map Measured.file
  bytes : g.bytes = (ms.map Measured.liveBytes).sum
  dead : g.dead = (ms.map Measured.dead).sum

theorem Group.Of.empty : Group.empty.Of [] := ⟨rfl, rfl, rfl⟩

theorem Group.Of.add (h : g.Of ms) (m : Measured) : (g.add m).Of (ms ++ [m]) := by
  refine ⟨?_, ?_, ?_⟩
  · simp [Group.add, h.files]
  · simp [Group.add, h.bytes]
  · simp [Group.add, h.dead]

variable {done : List Measured}

/-- The groups are made of the files in order. -/
theorem groups_of (rotateBytes : Int) (h : g.Of done) (hne : done ≠ [])
    (ms : List Measured) : ∃ parts : List (List Measured),
      List.Forall₂ Group.Of (groups rotateBytes g ms) parts ∧ parts.flatten = done ++ ms ∧
        ∀ part ∈ parts, part ≠ [] := by
  induction ms generalizing g done with
  | nil => exact ⟨[done], .cons h .nil, by simp, by simpa using hne⟩
  | cons m ms ih =>
    rw [groups]
    split
    · obtain ⟨parts, hparts, hflat, hall⟩ := ih (Group.Of.empty.add m) (by simp)
      exact ⟨done :: parts, .cons h hparts, by simp [hflat], List.forall_mem_cons.mpr ⟨hne, hall⟩⟩
    · obtain ⟨parts, hparts, hflat, hall⟩ := ih (h.add m) (by simp)
      exact ⟨parts, hparts, by simp [hflat], hall⟩

/-- Neighbours in this order do not fit into one group. -/
def Apart (rotateBytes : Int) (a b : Nat) : Prop := 0 < a ∧ rotateBytes < a + b

/-- Two neighbouring groups would not have fit into one. -/
theorem groups_apart (rotateBytes : Int) (g : Group) (ms : List Measured) :
    ∃ h t, (groups rotateBytes g ms).map Group.bytes = h :: t ∧ g.bytes ≤ h ∧
      List.IsChain (Apart rotateBytes) (h :: t) := by
  induction ms generalizing g with
  | nil => exact ⟨g.bytes, [], rfl, le_refl _, List.isChain_singleton _⟩
  | cons m ms ih =>
    rw [groups]
    split
    · next hclose =>
      obtain ⟨h, t, hmap, hle, hchain⟩ := ih (Group.empty.add m)
      refine ⟨g.bytes, h :: t, by rw [map_cons, hmap], le_refl _, ?_⟩
      refine List.isChain_cons_cons.mpr ⟨⟨hclose.1, ?_⟩, hchain⟩
      have hfirst : m.liveBytes ≤ h := by simpa [Group.add, Group.empty] using hle
      have := hclose.2
      omega
    · obtain ⟨h, t, hmap, hle, hchain⟩ := ih (g.add m)
      exact ⟨h, t, hmap, (Nat.le_add_right _ _).trans hle, hchain⟩

/-- Files that do not fit together are grouped alone. -/
theorem groups_alone (rotateBytes : Int) (m : Measured)
    (h : List.IsChain (Apart rotateBytes) ((m :: ms).map Measured.liveBytes)) :
    groups rotateBytes Group.empty (m :: ms) = (m :: ms).map Group.empty.add := by
  have hstart : groups rotateBytes Group.empty (m :: ms) = groups rotateBytes (Group.empty.add m) ms := by
    rw [groups, if_neg fun hpos => lt_irrefl 0 hpos.1]
  rw [hstart]
  clear hstart
  induction ms generalizing m with
  | nil => rfl
  | cons x ms ih =>
    obtain ⟨hapart, hchain⟩ := List.isChain_cons_cons.mp h
    have hclose : 0 < (Group.empty.add m).bytes ∧
        rotateBytes < (Group.empty.add m).bytes + x.liveBytes := by
      simpa [Group.add, Group.empty, Apart] using hapart
    rw [groups, if_pos hclose, ih x hchain]
    rfl

/-! ## One group -/

/-- The records of a group, from what was measured of its files. -/
theorem groupRecords_of (h : ∀ m ∈ ms, measure d live m.file = .ok m) :
    ∃ kept, groupRecords d live (ms.map Measured.file) = .ok kept ∧
      keepLive live kept = .ok (kept, 0) ∧
      (kept.map fun r => r.2.length + 4).sum = (ms.map Measured.liveBytes).sum := by
  induction ms with
  | nil => exact ⟨[], rfl, rfl, rfl⟩
  | cons m ms ih =>
    obtain ⟨rest, hrest, hlive, hbytes⟩ := ih fun x hx => h x (mem_cons_of_mem _ hx)
    obtain ⟨-, kept, hkept, hsum⟩ := measure_spec (h m mem_cons_self)
    have hagain : keepLive live kept = .ok (kept, 0) := by
      unfold liveRecords at hkept
      split at hkept
      · cases hkept
      · exact keepLive_kept hkept
    refine ⟨kept ++ rest, ?_, keepLive_append hagain hlive, ?_⟩
    · simp only [map_cons, groupRecords, hkept, hrest]
    · rw [map_append, List.sum_append, hbytes, map_cons, List.sum_cons, hsum]

/-- A file that a second compaction would leave alone. -/
def Settled (m : Measured) : Prop := m.dead = 0 ∨ m.dead * 10 < m.file.count

/-- A group that is not rewritten is a lone file that is left alone. -/
theorem Group.Of.lone (h : g.Of ms) (hne : ms ≠ []) (hkeep : g.rewritten = false) :
    ∃ m, ms = [m] ∧ Settled m := by
  obtain ⟨m, rest, rfl⟩ := List.exists_cons_of_ne_nil hne
  cases rest with
  | nil =>
    refine ⟨m, rfl, ?_⟩
    have hdead : g.dead = m.dead := by simpa using h.dead
    have hfiles : g.files = [m.file] := h.files
    simpa [Group.rewritten, hfiles, hdead, Settled, or_iff_not_imp_left] using hkeep
  | cons m' rest =>
    have hfiles : g.files = m.file :: m'.file :: rest.map Measured.file := h.files
    rw [Group.rewritten, hfiles] at hkeep
    cases hkeep

theorem rewritten_alone (h : Settled m) : (Group.empty.add m).rewritten = false := by
  have hfiles : (Group.empty.add m).files = [m.file] := rfl
  have hdead : (Group.empty.add m).dead = m.dead := Nat.zero_add _
  simpa [Group.rewritten, hfiles, hdead, Settled, or_iff_not_imp_left] using h

/-- What `flush` leaves of a group: one file with the group's live bytes, and the other files as they were. -/
structure Flushed (live : FilesystemLog.LiveFunc) (l l' : DiskLog) (pre post : List IndexFile)
    (ms : List Measured) (m : Measured) : Prop where
  opts : l'.opts = l.opts
  closed : l'.closed = pre ++ m.file :: post
  bytes : m.liveBytes = (ms.map Measured.liveBytes).sum
  measured : measure l'.dir live m.file = .ok m
  settled : Settled m
  first : ms.head?.map (fun x => x.file.first) = some m.file.first
  last : ms.getLast?.map (fun x => x.file.last) = some m.file.last
  others : ∀ f ∈ pre ++ post, l'.dir.lookup f.name = l.dir.lookup f.name

theorem lookup_flush {dir : Dir} {file : IndexFile} {data : Bytes}
    {n : FileName} (h : n ∉ replaced group file) (hfile : n ≠ file.name) :
    (Dir.removeAll (dir.insert file.name data) (replaced group file)).lookup n = dir.lookup n := by
  rw [Dir.lookup_removeAll, if_neg h, AList.lookup_insert_ne hfile]

theorem flush_spec {pre post : List IndexFile} (hg : g.Of ms) (hne : ms ≠ [])
    (hclosed : l.closed = pre ++ g.files ++ post) (hasc : (l.closed.map first).Pairwise (· < ·))
    (hms : ∀ m ∈ ms, measure l.dir live m.file = .ok m) (h : flush live l g = .ok l') :
    ∃ m, Flushed live l l' pre post ms m := by
  unfold flush at h
  split at h
  · next hrewritten =>
    obtain ⟨kept, hkept, hlive, hbytes⟩ := groupRecords_of hms
    rw [← hg.files] at hkept
    have hrewrite : l.rewrite live g.files = .ok
        ({ l with
            dir := l.dir.insert (compactedFile g.files kept).1.name (compactedFile g.files kept).2 },
          (compactedFile g.files kept).1) := by
      rw [rewrite, hkept]
    rw [hrewrite] at h
    cases h
    obtain ⟨x, xs, rfl⟩ := List.exists_cons_of_ne_nil hne
    have hfiles : g.files = x.file :: xs.map Measured.file := hg.files
    set new := (compactedFile g.files kept).1 with hnew
    have hfirst : new.first = x.file.first := by
      rw [hnew, compactedFile, hfiles]
      rfl
    -- The first revisions of the other files are not those of the group.
    have hother : ∀ f ∈ pre ++ post, ∀ y ∈ g.files, f.first ≠ y.first := by
      intro f hf y hy
      rw [hclosed, map_append, map_append] at hasc
      obtain ⟨hleft, -, hcross⟩ := List.pairwise_append.mp hasc
      have hlow := (List.pairwise_append.mp hleft).2.2
      have hym := mem_map_of_mem (f := first) hy
      rcases mem_append.mp hf with hf | hf
      · exact (hlow _ (mem_map_of_mem hf) _ hym).ne
      · exact (hcross _ (mem_append_right _ hym) _ (mem_map_of_mem hf)).ne'
    have hx : x.file ∈ g.files := by rw [hfiles]; exact mem_cons_self
    have hidx : (l.closed.findIdx fun f => some f.first == g.files.head?.map first) =
        pre.length := by
      have hpre : (pre.findIdx fun f => some f.first == g.files.head?.map first) =
          pre.length := by
        refine List.findIdx_eq_length.mpr fun f hf => ?_
        have := hother f (mem_append_left _ hf) x.file hx
        rw [hfiles]
        simpa using this
      rw [hclosed, append_assoc, List.findIdx_append, hpre, if_neg (lt_irrefl _), hfiles]
      simp [List.findIdx_cons]
    refine ⟨⟨new, (kept.map fun r => r.2.length + 4).sum, 0⟩, ?_, ?_, hbytes, ?_,
      Or.inl rfl, ?_, ?_, ?_⟩
    · unfold enqueue
      split <;> rfl
    · rw [enqueue_closed]
      show List.take _ l.closed ++ new :: List.drop _ l.closed = _
      rw [hidx, hclosed]
      simp
    · rw [enqueue_dir]
      refine measure_compactedFile hlive ?_
      show (Dir.removeAll (l.dir.insert new.name (compactedFile g.files kept).2)
        (replaced g.files new)).lookup new.name = _
      rw [Dir.lookup_removeAll, if_neg (by simp [replaced]), AList.lookup_insert]
    · simp [hfirst]
    · show _ = some (((g.files.getLast?).map last).getD 0)
      rw [hg.files, List.getLast?_map]
      obtain ⟨z, hz⟩ : ∃ z, (x :: xs).getLast? = some z :=
        Option.isSome_iff_exists.mp (by simp)
      rw [hz]
      rfl
    · intro f hf
      rw [enqueue_dir]
      refine lookup_flush ?_ ?_
      · intro hin
        obtain ⟨y, hy, hyn⟩ := mem_map.mp (List.mem_of_mem_filter hin)
        refine hother f hf y hy ?_
        rw [← f.first_name, ← hyn, y.first_name]
      · intro heq
        refine hother f hf x.file hx ?_
        rw [← f.first_name, heq, new.first_name, hfirst]
  · next hkeep =>
    cases h
    obtain ⟨m, rfl, hsettled⟩ := hg.lone hne (by simpa using hkeep)
    refine ⟨m, rfl, ?_, by simp, hms m mem_cons_self, hsettled, rfl, rfl, fun f _ => rfl⟩
    rw [hclosed, hg.files]
    simp

/-! ## All groups -/

/-- A measured file is not touched when other files are. -/
theorem measured_of_lookup (h : measure l.dir live m.file = .ok m)
    (hlookup : l'.dir.lookup m.file.name = l.dir.lookup m.file.name) :
    measure l'.dir live m.file = .ok m := by
  rw [measure_congr hlookup]
  exact h

/-- What `Compact` leaves of its groups: for each of them one file with its live bytes. -/
theorem foldlM_flush_spec {gs : List Group} {parts : List (List Measured)}
    (hgs : List.Forall₂ Group.Of gs parts) (hne : ∀ ms ∈ parts, ms ≠ []) {post : List IndexFile}
    (hclosed : l.closed = done.map Measured.file ++ parts.flatten.map Measured.file ++ post)
    (hasc : (l.closed.map first).Pairwise (· < ·))
    (hdone : ∀ m ∈ done, measure l.dir live m.file = .ok m)
    (hms : ∀ m ∈ parts.flatten, measure l.dir live m.file = .ok m)
    (h : gs.foldlM (flush live) l = .ok l') :
    ∃ outs, l'.opts = l.opts ∧ l'.closed = done.map Measured.file ++ outs.map Measured.file ++ post ∧
      outs.map Measured.liveBytes = gs.map Group.bytes ∧
      (∀ m ∈ done ++ outs, measure l'.dir live m.file = .ok m) ∧ (∀ m ∈ outs, Settled m) ∧
      ∀ m ∈ outs, ∃ x ∈ parts.flatten, m.file.last = x.file.last := by
  induction hgs generalizing l done with
  | nil =>
    cases h
    refine ⟨[], rfl, by simpa using hclosed, rfl, by simpa using hdone, ?_, ?_⟩
    · exact fun m hm => absurd hm not_mem_nil
    · exact fun m hm => absurd hm not_mem_nil
  | @cons g ms gs parts hg hgs ih =>
    rw [List.foldlM_cons] at h
    cases hflush : flush live l g with
    | error e =>
      rw [hflush] at h
      cases h
    | ok l₁ =>
      rw [hflush] at h
      change gs.foldlM (flush live) l₁ = .ok l' at h
      have hrow : l.closed = done.map Measured.file ++ g.files ++
          (parts.flatten.map Measured.file ++ post) := by
        rw [hclosed, hg.files]
        simp
      obtain ⟨m, hm⟩ := flush_spec hg (hne ms mem_cons_self) hrow hasc
        (fun x hx => hms x (mem_append_left _ hx)) hflush
      have hkept : ∀ x ∈ done ++ parts.flatten, measure l.dir live x.file = .ok x →
          measure l₁.dir live x.file = .ok x := by
        intro x hx hmeasure
        refine measured_of_lookup hmeasure (hm.others _ ?_)
        rcases mem_append.mp hx with hx | hx
        · exact mem_append_left _ (mem_map_of_mem hx)
        · exact mem_append_right _ (mem_append_left _ (mem_map_of_mem hx))
      have hclosed₁ : l₁.closed = (done ++ [m]).map Measured.file ++
          parts.flatten.map Measured.file ++ post := by
        rw [hm.closed]
        simp
      -- The first revisions of the files are some of those before.
      have hasc₁ : (l₁.closed.map first).Pairwise (· < ·) := by
        refine hasc.sublist ?_
        obtain ⟨x, xs, rfl⟩ := List.exists_cons_of_ne_nil (hne ms mem_cons_self)
        have hfirst : x.file.first = m.file.first := by simpa using hm.first
        rw [hm.closed, hrow, hg.files]
        simp only [map_append, map_cons, append_assoc, cons_append, hfirst]
        refine List.Sublist.append_left (List.Sublist.cons_cons _ ?_) _
        exact List.sublist_append_right _ _
      obtain ⟨outs, hopts, hclosed', hbytes, hmeasured, hsettled, hlast⟩ :=
        ih (fun x hx => hne x (mem_cons_of_mem _ hx)) hclosed₁ hasc₁
          (fun x hx => by
            rcases mem_append.mp hx with hx | hx
            · exact hkept x (mem_append_left _ hx) (hdone x hx)
            · rw [mem_singleton.mp hx]
              exact hm.measured)
          (fun x hx => hkept x (mem_append_right _ hx)
            (hms x (mem_append_right _ hx))) h
      refine ⟨m :: outs, hopts.trans hm.opts, by simpa using hclosed', ?_, ?_, ?_, ?_⟩
      · rw [map_cons, map_cons, hbytes, hm.bytes, hg.bytes]
      · simpa using hmeasured
      · intro x hx
        rcases mem_cons.mp hx with rfl | hx
        · exact hm.settled
        · exact hsettled x hx
      · intro x hx
        rcases mem_cons.mp hx with rfl | hx
        · obtain ⟨z, hz, hzlast⟩ := Option.map_eq_some_iff.mp hm.last
          exact ⟨z, mem_append_left _ (List.mem_of_getLast? hz), hzlast.symm⟩
        · obtain ⟨z, hz, hzlast⟩ := hlast x hx
          exact ⟨z, mem_append_right _ hz, hzlast⟩

theorem mapM_measure_spec {fs : List IndexFile} (h : fs.mapM (measure d live) = .ok ms) :
    ms.map Measured.file = fs ∧ ∀ m ∈ ms, measure d live m.file = .ok m := by
  induction fs generalizing ms with
  | nil =>
    cases h
    exact ⟨rfl, fun m hm => absurd hm not_mem_nil⟩
  | cons f fs ih =>
    rw [List.mapM_cons] at h
    cases hf : measure d live f with
    | error e =>
      rw [hf] at h
      cases h
    | ok m =>
      rw [hf] at h
      cases hfs : fs.mapM (measure d live) with
      | error e =>
        rw [hfs] at h
        cases h
      | ok rest =>
        rw [hfs] at h
        cases h
        obtain ⟨hfiles, hrest⟩ := ih hfs
        have hfile := (measure_spec hf).1
        refine ⟨by rw [map_cons, hfiles, hfile], fun x hx => ?_⟩
        rcases mem_cons.mp hx with rfl | hx
        · rw [hfile]
          exact hf
        · exact hrest x hx

theorem mapM_measure_of (h : ∀ m ∈ ms, measure d live m.file = .ok m) :
    (ms.map Measured.file).mapM (measure d live) = .ok ms := by
  induction ms with
  | nil => rfl
  | cons m ms ih =>
    rw [map_cons, List.mapM_cons, h m mem_cons_self,
      ih fun x hx => h x (mem_cons_of_mem _ hx)]
    rfl

/-- Groups that are not rewritten leave the log as it is. -/
theorem foldlM_flush_kept (l : DiskLog) {gs : List Group} (h : ∀ g ∈ gs, g.rewritten = false) :
    gs.foldlM (flush live) l = .ok l := by
  induction gs with
  | nil => rfl
  | cons g gs ih =>
    have hg : flush live l g = .ok l := by
      rw [flush, if_neg (by rw [h g mem_cons_self]; exact Bool.false_ne_true)]
    rw [List.foldlM_cons, hg]
    exact ih fun x hx => h x (mem_cons_of_mem _ hx)

/-- The eligible files come before the others. -/
theorem eligible_append (h : InRow l.closed) (through : Nat) :
    l.closed = l.eligible through ++ l.closed.filter fun f => through < f.last := by
  unfold eligible
  unfold InRow at h
  generalize l.closed = files at h ⊢
  induction files with
  | nil => rfl
  | cons f fs ih =>
    obtain ⟨hf, hfs⟩ := List.pairwise_cons.mp h
    by_cases hle : f.last ≤ through
    · rw [List.filter_cons_of_pos (by simpa using hle),
        List.filter_cons_of_neg (by simpa using hle), cons_append, ← ih hfs]
    · have hnone : fs.filter (fun f => decide (f.last ≤ through)) = [] := by
        refine List.filter_eq_nil_iff.mpr fun g hg => ?_
        have := (hf g hg).2
        simp only [decide_eq_true_eq]
        omega
      have hall : fs.filter (fun f => decide (through < f.last)) = fs := by
        refine List.filter_eq_self.mpr fun g hg => ?_
        have := (hf g hg).2
        simp only [decide_eq_true_eq]
        omega
      rw [List.filter_cons_of_neg (by simpa using hle), hnone,
        List.filter_cons_of_pos (by simpa using hle), hall, List.nil_append]

/-- `Compact` would rewrite a group. -/
def Rewrites (l : DiskLog) (through : Nat) (live : FilesystemLog.LiveFunc) : Prop :=
  ∃ ms, (l.eligible through).mapM (measure l.dir live) = .ok ms ∧
    ∃ g ∈ groups l.opts.rotateBytes Group.empty ms, g.rewritten = true

/-- A second `Compact` rewrites no group and leaves the directory, the index and the queue as they are. -/
theorem compact_idempotent {l l' : DiskLog} {through : Nat} {live : FilesystemLog.LiveFunc}
    (hrow : InRow l.closed) (h : l.compact through live = .ok l') :
    l'.compact through live = .ok l' ∧ ¬ l'.Rewrites through live := by
  unfold compact at h
  cases hmapM : (l.eligible through).mapM (measure l.dir live) with
  | error e =>
    rw [hmapM] at h
    cases h
  | ok ms =>
    rw [hmapM] at h
    change (groups l.opts.rotateBytes Group.empty ms).foldlM (flush live) l = .ok l' at h
    obtain ⟨hfiles, hms⟩ := mapM_measure_spec hmapM
    have hsplit := eligible_append hrow through
    -- What the second call measures and groups.
    have hagain : ∃ outs, (l'.eligible through).mapM (measure l'.dir live) = .ok outs ∧
        ∀ g ∈ groups l'.opts.rotateBytes Group.empty outs, g.rewritten = false := by
      cases ms with
      | nil =>
        have hsame : l' = l := by
          have hempty : ∀ g ∈ groups l.opts.rotateBytes Group.empty [], g.rewritten = false := by
            intro g hg
            rw [mem_singleton.mp hg]
            rfl
          rw [foldlM_flush_kept l hempty] at h
          exact (Except.ok.inj h).symm
        subst hsame
        refine ⟨[], hmapM, fun g hg => ?_⟩
        rw [mem_singleton.mp hg]
        rfl
      | cons m ms =>
        obtain ⟨parts, hparts, hflat, hne⟩ := groups_of l.opts.rotateBytes
          (Group.Of.empty.add m) (by simp) ms
        have hstart : groups l.opts.rotateBytes Group.empty (m :: ms) =
            groups l.opts.rotateBytes (Group.empty.add m) ms := by
          rw [groups, if_neg fun hpos => lt_irrefl 0 hpos.1]
        rw [hstart] at h
        have hflat' : parts.flatten = m :: ms := hflat
        obtain ⟨outs, hopts, hclosed, hbytes, hmeasured, hsettled, hlast⟩ :=
          foldlM_flush_spec hparts hne
            (show l.closed = ([] : List Measured).map Measured.file ++ parts.flatten.map Measured.file ++
              l.closed.filter fun f => through < f.last by rw [hflat', hfiles]; exact hsplit)
            (List.pairwise_map.mpr (hrow.imp fun hlt => hlt.1))
            (fun x hx => absurd hx not_mem_nil) (by rw [hflat']; exact hms) h
        obtain ⟨b, bs, hgroups, -, hchain⟩ := groups_apart l.opts.rotateBytes (Group.empty.add m) ms
        have heligible : l'.eligible through = outs.map Measured.file := by
          rw [eligible, hclosed, List.map_nil, List.nil_append, List.filter_append,
            List.filter_eq_self.mpr, List.filter_eq_nil_iff.mpr, List.append_nil]
          · intro f hf
            have := (List.mem_filter.mp hf).2
            simpa using this
          · intro f hf
            obtain ⟨out, hout, rfl⟩ := mem_map.mp hf
            obtain ⟨x, hx, hxlast⟩ := hlast out hout
            have hxe : x.file ∈ l.eligible through := by
              rw [← hfiles, ← hflat']
              exact mem_map_of_mem hx
            have := (List.mem_filter.mp hxe).2
            rw [hxlast]
            exact this
        refine ⟨outs, by rw [heligible]; exact mapM_measure_of hmeasured, ?_⟩
        rw [hgroups] at hbytes
        obtain ⟨out, outs, rfl, -, -⟩ := List.map_eq_cons_iff.mp hbytes
        rw [← hbytes] at hchain
        rw [hopts, groups_alone _ out hchain]
        intro g hg
        obtain ⟨x, hx, rfl⟩ := mem_map.mp hg
        exact rewritten_alone (hsettled x hx)
    obtain ⟨outs, hmeasure, hkept⟩ := hagain
    constructor
    · rw [compact, hmeasure]
      exact foldlM_flush_kept l' hkept
    · rintro ⟨ms', hms', g, hg, hrewritten⟩
      obtain rfl := Except.ok.inj (hms'.symm.trans hmeasure)
      rw [hkept g hg] at hrewritten
      cases hrewritten

theorem inRow_of_tiled {fs : List IndexFile} {gs : List LogFile} (h : List.Forall₂ Describes fs gs)
    {want next : Nat} (htiled : Tiled want gs next) : InRow fs := by
  induction h generalizing want with
  | nil => exact List.Pairwise.nil
  | @cons f g fs gs hf hfs ih =>
    obtain ⟨-, hle, -, hrest⟩ := htiled
    refine List.pairwise_cons.mpr ⟨fun f' hf' => ?_, ih hrest⟩
    obtain ⟨g', hg', hdesc⟩ := Indexes.forall₂_mem_left hfs hf'
    have := hrest.of_mem hg'
    rw [hf.first, hf.last, hdesc.first, hdesc.last]
    omega

/-- The files of a log without gaps are in a row. -/
theorem inRow_of_indexes {d : DiskLog} {l : FilesystemLog} (h : Indexes d l) (hwf : l.WF) :
    InRow d.closed := inRow_of_tiled h.closed hwf.closed

/-- One transaction a file. -/
def filesOf : List UInt8 → DiskLog → Option DiskLog
  | [], l => some l
  | key :: keys, l =>
    match l.commitBatch l.lastRevision [⟨[{ type := .put, kv := { key := [key] } }]⟩] with
    | .error _ => none
    | .ok l => filesOf keys l.rotate

/-- Of four files the first has no live record; the others are merged two by two. -/
theorem compact_idempotent_merged : ∃ l l' : DiskLog, InRow l.closed ∧
    l.compact 4 (fun key _ => decide (key ≠ [97])) = .ok l' ∧
    l'.closed.map IndexFile.name = [.sparse 1 3, .dense 4] ∧
    l'.compact 4 (fun key _ => decide (key ≠ [97])) = .ok l' ∧
    ¬ l'.Rewrites 4 (fun key _ => decide (key ≠ [97])) := by
  obtain ⟨l, -, hrow, l', hcompact, hnames⟩ :
      ∃ l, (openLog ⟨0, 40⟩ false ∅ ∅).2.toOption.bind (filesOf [97, 98, 99, 100]) = some l ∧
        InRow l.closed ∧ ∃ l', l.compact 4 (fun key _ => decide (key ≠ [97])) = .ok l' ∧
          l'.closed.map name = [.sparse 1 3, .dense 4] := by
    decide +kernel
  exact ⟨l, l', hrow, hcompact, hnames, compact_idempotent hrow hcompact⟩

end DiskLog

end CloudEtcd
