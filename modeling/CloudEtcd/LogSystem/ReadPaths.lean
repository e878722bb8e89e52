/-
# CloudEtcd.LogSystem.ReadPaths — every way to read a record.

In every state of a run of commits, rotations, compactions taken step by step, reads, closes, crashes and
restarts in which no compaction swaps a file out of the index that a call is about to read, all ways to read
a record lead to the one that was committed (`read_paths_agree`).
-/
import CloudEtcd.LogSystem.CachedLog

namespace CloudEtcd

open FilesystemLog LogSystem LogCodec
open DiskLog (decodeCalls readCalls readFile fileData)
open List (mem_append append_nil mem_append_left mem_append_right mem_cons_self mem_cons_of_mem
  mem_map mem_flatMap mem_singleton flatMap_cons)

/-! ## The invariant -/

namespace CachedLog

open LogSystem (Action)

/-- A process that has the log open. -/
structure Serves (s : CachedLog) (p : Process) (l b : FilesystemLog) : Prop where
  running : Running p l b
  safe : Safe s.system.archive p.pending b
  archiving : p.log.archiving = s.system.archiving
  index : Tells s.committed l
  back : Tells s.committed b
  cache : ∀ it ∈ s.cache.ll, s.Committed it.revision it.record
  held : Holding s.held l p.job

/-- What is there while no process runs. -/
def Left (dir archive : Dir) (history : List LogRecord) : Prop :=
  (dir = ∅ ∧ archive = ∅ ∧ history = []) ∨ Dead dir ∨
    ∃ b, Recovers dir b ∧ Safe archive [] b ∧ Tells history b

/-- What holds in every reachable state. -/
def Faithful (s : CachedLog) : Prop :=
  (∀ x ∈ s.committed, TypedRecord x) ∧
  match s.system.status with
  | .down dir => Left dir s.system.archive s.committed
  | .up p => ∃ l b, s.Serves p l b

theorem faithful_init (mmap archiving : Bool) : (init mmap archiving).Faithful :=
  ⟨fun x hx => (by cases hx), Or.inl ⟨rfl, rfl, rfl⟩⟩

section

variable {s : CachedLog} {p : Process} {l b : FilesystemLog}
variable {dir held : Dir} {f : IndexFile} {g : LogFile} {fs : List IndexFile} {gs : List LogFile}
variable {data : Bytes} {batch : List LogRecord} {t : Touch}
variable {r : Nat} {x : LogRecord} {a : Action} {p' : Process}
  {live : FilesystemLog.LiveFunc} {system : LogSystem} {D : Decoder}

theorem Faithful.up (h : s.Faithful) (hup : s.system.status = .up p) : ∃ l b, s.Serves p l b := by
  have hstatus := h.2
  rwa [hup] at hstatus

theorem Faithful.down (h : s.Faithful) (hdown : s.system.status = .down dir) :
    Left dir s.system.archive s.committed := by
  have hstatus := h.2
  rwa [hdown] at hstatus

/-- A record of the files was committed, and can be decoded. -/
theorem Serves.committed (h : s.Serves p l b) (hx : (r, x) ∈ l.records) : s.Committed r x :=
  ⟨(h.running.wf.record_bounds hx).1, h.index.records _ hx⟩

theorem Serves.storable (h : s.Serves p l b) {r : Nat × LogRecord} (hr : r ∈ l.records) :
    Storable r := by
  obtain ⟨g, hg, hgr⟩ := mem_flatMap.mp hr
  obtain ⟨f, -, hdesc⟩ := forall₂_mem h.running.index.files hg
  exact hdesc.storable r hgr

theorem Committed.typed (h : s.Committed r x) (htyped : ∀ y ∈ s.committed, TypedRecord y) :
    TypedRecord x :=
  htyped x (List.mem_of_getElem? h.2)

theorem committed_append {history more : List LogRecord} (h : 1 ≤ r ∧ history[r - 1]? = some x) :
    1 ≤ r ∧ (history ++ more)[r - 1]? = some x := by
  obtain ⟨hpos, hget⟩ := h
  obtain ⟨hlt, -⟩ := List.getElem?_eq_some_iff.mp hget
  exact ⟨hpos, by rw [List.getElem?_append_left hlt]; exact hget⟩

/-! ## Reading -/

section

variable (h : s.Serves p l b)
include h

/-- Every file of the log is whole, for a reader. -/
theorem Serves.view : ∀ g ∈ l.files,
    (CachedLog.view s.held p.log).dir.lookup g.name = some (encodeFile g.records) := by
  intro g hg
  rcases mem_append.mp hg with hg | hg
  · exact h.held.view h.running hg
  · rw [mem_singleton.mp hg]
    show (s.held ∪ p.log.dir).lookup _ = _
    rw [AList.lookup_union_right (h.held.active h.running.wf)]
    exact h.running.job.active

theorem Serves.indexes : Indexes (CachedLog.view s.held p.log) l :=
  ⟨h.running.index.opts, h.running.index.closed, h.running.index.active, h.running.index.indexed,
    h.running.index.lastRevision⟩

/-- The positioned read of the active file is a read like the others. -/
theorem Serves.fetch_eq (r : Nat) : s.fetch p r = (CachedLog.view s.held p.log).recordBytes r := by
  have hview : (CachedLog.view s.held p.log).findFile r = p.log.findFile r := rfl
  unfold fetch DiskLog.recordBytes
  rw [hview]
  cases p.log.findFile r with
  | none => rfl
  | some f =>
    by_cases hactive : f = p.log.active
    · have hdir : (CachedLog.view s.held p.log).dir.lookup p.log.active.name =
          p.log.dir.lookup p.log.active.name := by
        refine AList.lookup_union_right ?_
        rw [h.running.index.active.name]
        exact h.held.active h.running.wf
      have hentry : (CachedLog.view s.held p.log).active = p.log.active := rfl
      subst hactive
      simp only [if_true, hentry]
      cases p.log.active.position r with
      | error e => rfl
      | ok pos => simp only [hdir]
    · simp only [if_neg hactive]

/-- `recordBytes` returns the records of the files, and only these. -/
theorem Serves.fetch_iff {m : Bytes} :
    s.fetch p r = .ok m ↔ ∃ x, (r, x) ∈ l.records ∧ m = encodeRecord r x := by
  have hdir : ∀ g ∈ l.files, g.first ≤ r → r ≤ g.last →
      (CachedLog.view s.held p.log).dir.lookup g.name = some (encodeFile g.records) :=
    fun g hg _ _ => h.view g hg
  rw [h.fetch_eq]
  constructor
  · exact h.indexes.of_recordBytes h.running.wf hdir
  · rintro ⟨x, hx, rfl⟩
    exact h.indexes.recordBytes h.running.wf hx hdir

theorem Serves.decode (htyped : ∀ y ∈ s.committed, TypedRecord y) (D : Decoder)
    (hx : (r, x) ∈ l.records) : D.decode (encodeRecord r x) = some x :=
  D.decodes r x ((h.committed hx).typed htyped) (h.storable hx).2.2

end

/-! ## The log's own steps -/

theorem added_commit (p : Process) (position : Nat) (batch : List LogRecord) :
    added p (.commit position batch) = if position = p.log.lastRevision then batch else [] := rfl

/-- The records that an action adds are those it was given. -/
theorem typed_added (h : Typed a) : ∀ x ∈ added p a, TypedRecord x := by
  intro x hx
  unfold added at hx
  split at hx
  · split at hx
    · exact h x hx
    · cases hx
  · next cut =>
    unfold Cut.survivors at hx
    split at hx
    · exact h x (List.mem_of_mem_take hx)
    · exact h x hx
  · cases hx

/-- What a move leaves of the archive's part. -/
theorem Serves.moves (h : s.Serves p l b) {l' b' : FilesystemLog}
    (hmoves : Moves p l b t p' l' b') :
    Safe s.system.archive p'.pending b' ∧ p'.log.archiving = s.system.archiving := by
  refine ⟨?_, hmoves.archiving.trans h.archiving⟩
  exact hmoves.invariant (I := fun p _ b => Safe s.system.archive p.pending b)
    (fun _ _ _ _ _ _ hr hs he _ => hs.effect hr he)
    (fun _ _ _ _ he _ => h.safe.effect h.running he) h.safe

/-- A move that commits nothing and leaves the cache alone. -/
theorem Serves.quiet (h : s.Serves p l b) {l' b' : FilesystemLog}
    (hrunning : Running p' l' b') (hmoves : Moves p l b t p' l' b') (hindex : Tells s.committed l')
    (hback : Tells s.committed b') (hheld : Holding held l' p'.job) :
    Serves { s with
      system := { s.system with status := .up p' }
      held := held
      committed := s.committed ++ [] } p' l' b' := by
  obtain ⟨hsafe, harch⟩ := h.moves hmoves
  rw [append_nil]
  exact ⟨hrunning, hsafe, harch, hindex, hback, h.cache, hheld⟩

/-- A move that leaves the index and the compaction alone, too. -/
theorem Serves.keep (h : s.Serves p l b) (hrunning : Running p' l b) (hmoves : Moves p l b t p' l b)
    (hjob : p'.job = p.job) :
    Serves { s with
      system := { s.system with status := .up p' }
      committed := s.committed ++ [] } p' l b :=
  h.quiet hrunning hmoves h.index h.back (hjob ▸ h.held)

/-- A batch is committed, or refused. -/
theorem Serves.commit (h : s.Serves p l b) {position : Nat}
    (hp : p.commit position batch = some p') :
    ∃ l' b', Serves { s with
      system := { s.system with status := .up p' }
      committed := s.committed ++ added p (.commit position batch)
      cache := (numberFrom (p.log.lastRevision + 1) (added p (.commit position batch))).foldl
        (fun c r => c.put r.1 r.2) s.cache } p' l' b' := by
  have hlast := h.running.index.lastRevision
  obtain ⟨l', b', hrunning, hmoves, hjob, ⟨rfl, hrefused, rfl, rfl⟩ | ⟨-, hposition, hcases⟩⟩ :=
    h.running.moves_commit hp
  · have hnone : added p' (.commit position batch) = [] := by
      rw [added_commit]
      split
      · next heq =>
        rcases hrefused with hnil | hne
        · exact hnil
        · exact absurd (heq.trans hlast) hne
      · rfl
    rw [hnone]
    exact ⟨_, _, h.keep h.running hmoves rfl⟩
  · have hadded : added p (.commit position batch) = batch := by
      rw [added_commit, if_pos (hposition.trans hlast.symm)]
    have hindex := h.index.published h.running.wf batch
    have hback := h.back.published h.running.recovers.wf batch
    obtain ⟨hsafe, harch⟩ := h.moves hmoves
    rw [hadded]
    -- A cached record is an old one or one of the batch.
    have hcache : ∀ it ∈ ((numberFrom (p.log.lastRevision + 1) batch).foldl
        (fun c r => c.put r.1 r.2) s.cache).ll,
        1 ≤ it.revision ∧ (s.committed ++ batch)[it.revision - 1]? = some it.record := by
      intro it hit
      rcases mem_foldl_put _ hit with hold | hnew
      · exact committed_append (h.cache it hold)
      · obtain ⟨hle, hget⟩ := getElem_of_mem_numberFrom hnew
        have hend := h.index.last
        rw [hlast] at hle hget
        dsimp only at hle hget
        refine ⟨by omega, ?_⟩
        rw [List.getElem?_append_right (by omega), ← hget]
        congr 1
        omega
    rcases hcases with ⟨rfl, rfl⟩ | ⟨rfl, rfl⟩
    · refine ⟨_, _, hrunning, hsafe, harch, hindex, hback, hcache, ?_⟩
      rw [hjob]
      exact h.held.mono fun g hg => hg
    · refine ⟨_, _, hrunning, hsafe, harch, hindex.rotate, hback.rotate, hcache, ?_⟩
      obtain ⟨fs, hfs⟩ := rotate_closed (l.published batch)
      rw [hjob]
      refine h.held.mono fun g hg => ?_
      rw [hfs]
      exact mem_append_left _ hg

/-- A rotation. -/
theorem Serves.rotate (h : s.Serves p l b) (hrunning : Running p' l.rotate b.rotate)
    (hmoves : Moves p l b .nothing p' l.rotate b.rotate) (hjob : p'.job = p.job) :
    Serves { s with
      system := { s.system with status := .up p' }
      committed := s.committed ++ [] } p' l.rotate b.rotate := by
  refine h.quiet hrunning hmoves h.index.rotate h.back.rotate ?_
  obtain ⟨fs, hfs⟩ := rotate_closed l
  rw [hjob]
  refine h.held.mono fun g hg => ?_
  rw [hfs]
  exact mem_append_left _ hg

/-- A step of a compaction that puts a new file in place has rewritten a group. -/
theorem replaced_compactStep (hp : p.compactStep live = some p') : replaced p'.job = [] ∨
    ∃ g rest, p.job = some (.grouped (g :: rest)) ∧ g.rewritten = true ∧ replaced p'.job = g.files := by
  unfold Process.compactStep at hp
  split at hp
  case h_5 g todo hbefore =>
    split at hp
    · next hre =>
      split at hp <;> cases hp
      · exact Or.inl rfl
      · exact Or.inr ⟨g, todo, hbefore, hre, rfl⟩
    · cases hp
      exact Or.inl rfl
  all_goals try split at hp
  all_goals cases hp
  all_goals exact Or.inl rfl

/-- What is held after a step of a compaction that leaves the index alone. -/
theorem Serves.held_step (h : s.Serves p l b) (hp : p.compactStep live = some p')
    (hswap : replaced p.job = []) : Holding (heldAfter p s.held) l p'.job := by
  have hok := h.running.job
  have hout (hnot : ∀ g todo, p.job = some (.grouped (g :: todo)) → ¬g.rewritten = true) :
      replaced p'.job = [] :=
    (replaced_compactStep hp).resolve_right fun ⟨g, rest, hbefore, hre, _⟩ => hnot g rest hbefore hre
  unfold heldAfter
  split
  · next f todo measured hjob =>
    -- The file that is measured is one of the index.
    rw [hjob] at hok
    cases hok with
    | @measuring _ _ ms ltodo rest hdir hclosed hms htodo =>
      cases htodo with
      | @cons _ g _ ltodo hf _ =>
        have hg : g ∈ l.closed := by
          rw [hclosed]
          simp
        refine (h.held.hold hg hf fun data hdata => ?_).withJob
          (hout fun g todo hgrouped => by rw [hjob] at hgrouped; cases hgrouped)
        rw [hf.fileData (hdir.holds g (mem_append_left _ hg))] at hdata
        exact (Except.ok.inj hdata).symm
  · next g todo hjob =>
    split
    · rw [hjob] at hok
      cases hok with
      | @grouped _ gs pre rest hdir hclosed htodo =>
        cases htodo with
        | @cons _ fs _ gs hg _ =>
          have hin : ∀ x ∈ fs, x ∈ l.closed := fun x hx => by
            rw [hclosed]
            simp [hx]
          obtain ⟨hheld, -, hall⟩ := Holding.holdAll hg hin
            (hdir.holds.subset fun x hx => mem_append_left _ (hin x hx)) h.held
          refine ⟨hheld.only, fun f hf => ?_⟩
          rcases replaced_compactStep hp with hnone | ⟨g', rest', hbefore, -, hfiles⟩
          · rw [hnone] at hf
            cases hf
          · rw [hjob] at hbefore
            cases hbefore
            exact hall f (hfiles ▸ hf)
    · next hre =>
      refine h.held.withJob (hout fun g' todo' hgrouped hre' => ?_)
      rw [hjob] at hgrouped
      cases hgrouped
      exact hre hre'
  · next group file todo hjob =>
    obtain rfl : group = [] := by rwa [hjob] at hswap
    exact h.held.withJob (hout fun g todo hgrouped => by rw [hjob] at hgrouped; cases hgrouped)
  · next hmeasuring hgrouped hrenamed =>
    exact h.held.withJob (hout fun g todo hjob _ => hgrouped g todo hjob)

/-- A step of a compaction. -/
theorem Serves.compactStep (h : s.Serves p l b) (hp : p.compactStep live = some p') :
    ∃ l' b', Serves { s with
      system := { s.system with status := .up p' }
      held := heldAfter p s.held
      committed := s.committed ++ [] } p' l' b' := by
  have hone : ∀ {l' b'}, StepEffect p l b (p.touch live) p' l' b' →
      Moves p l b (p.touch live) p' l' b' := fun heffect =>
    Moves.one h.running heffect (Process.compactStep_archiving hp)
  -- Only the swap changes the log that the index describes.
  have hstay : ∀ {b'}, replaced p.job = [] → Running p' l b' →
      StepEffect p l b (p.touch live) p' l b' →
      Serves { s with
        system := { s.system with status := .up p' }
        held := heldAfter p s.held
        committed := s.committed ++ [] } p' l b' := fun hswap hrunning heffect =>
    h.quiet hrunning (hone heffect) h.index (h.back.effect h.running heffect rfl)
      (h.held_step hp hswap)
  cases hjob : p.job with
  | none =>
    rw [Process.compactStep, hjob] at hp
    cases hp
  | some job =>
    cases job with
    | measuring todo measured =>
      obtain ⟨hrunning, heffect⟩ := h.running.step_measuring hjob hp
      exact ⟨l, b, hstay (hjob ▸ rfl) hrunning heffect⟩
    | grouped todo =>
      obtain ⟨b', hrunning, heffect⟩ := h.running.step_grouped hjob hp
      exact ⟨l, b', hstay (hjob ▸ rfl) hrunning heffect⟩
    | replacing names ops todo =>
      obtain ⟨b', hrunning, heffect⟩ := h.running.step_replacing hjob hp
      exact ⟨l, b', hstay (hjob ▸ rfl) hrunning heffect⟩
    | renamed group file todo =>
      obtain ⟨pre, lgroup, rest, kept, b', hgroup, hclosed, hne, hsub, hrunning, heffect⟩ :=
        h.running.step_renamed hjob hp
      have hindex : Tells s.committed (l.compactGroup lgroup kept) :=
        h.index.compacts (Or.inr ⟨pre, lgroup, rest, kept, h.running.wf, hclosed, hne, hsub, rfl⟩)
      refine ⟨_, b', h.quiet hrunning (hone heffect) hindex
        (h.back.effect h.running heffect rfl) ?_⟩
      rw [heldAfter, hjob]
      refine h.held.swap h.running.wf hgroup hclosed hne hsub ((replaced_compactStep hp).resolve_right ?_)
      rintro ⟨g, todo', hbefore, -⟩
      rw [hjob] at hbefore
      cases hbefore

/-- What a process leaves behind. -/
theorem Serves.left (h : s.Serves p l b) : Left p.log.dir s.system.archive (s.committed ++ []) :=
  Or.inr (Or.inr ⟨b, h.running.recovers, ⟨h.safe.archived, fun op hop => by cases hop⟩, h.back.same⟩)

/-- What the log does while it is open. -/
theorem Faithful.act_up (h : s.Faithful) (hup : s.system.status = .up p) (htyped : Typed a)
    (hstep : s.system.step a = some system) : (s.after a system).Faithful := by
  obtain ⟨l, b, hserves⟩ := h.up hup
  have hall : ∀ x ∈ s.committed ++ added p a, TypedRecord x := by
    intro x hx
    rcases mem_append.mp hx with hx | hx
    · exact h.1 x hx
    · exact typed_added htyped x hx
  unfold after
  rw [hup]
  rcases step_up hup hstep with ⟨p', hmove, rfl⟩ | ⟨rfl, hcarry⟩ | ⟨rfl, rfl⟩ |
    ⟨cut, dir, rfl, hcut, rfl⟩
  · cases a with
    | start | failStart | carryOut | exit | crash => cases hmove
    | commit position batch => exact ⟨hall, hserves.commit hmove⟩
    | tick =>
      change p.tick = some p' at hmove
      unfold Process.tick at hmove
      split at hmove
      · cases hmove
      · cases hmove
        obtain ⟨hrunning, hmoves⟩ := hserves.running.moves_rotate
        exact ⟨hall, _, _, hserves.rotate hrunning hmoves rfl⟩
    | load revision =>
      cases hmove
      obtain ⟨hrunning, heffect⟩ := hserves.running.load revision
      have hjob : (p.load revision).job = p.job := by
        unfold Process.load
        split <;> rfl
      exact ⟨hall, l, b, hserves.keep hrunning (Moves.one hserves.running heffect
        (p.load_archiving revision)) hjob⟩
    | compact through =>
      obtain ⟨hrunning, heffect⟩ := hserves.running.compact hmove
      change p.compact through = some p' at hmove
      unfold Process.compact at hmove
      split at hmove
      · cases hmove
      · split at hmove
        · cases hmove
        · cases hmove
          exact ⟨hall, l, b, hserves.quiet hrunning (Moves.one hserves.running heffect rfl)
            hserves.index hserves.back (hserves.held.withJob rfl)⟩
    | compactStep live => exact ⟨hall, hserves.compactStep hmove⟩
    | take =>
      obtain ⟨hrunning, hmoves, hjob⟩ := hserves.running.moves_take hmove
      exact ⟨hall, l, b, hserves.keep hrunning hmoves hjob⟩
    | close =>
      obtain ⟨l', b', hrunning, hmoves, hjob, ⟨rfl, rfl⟩ | ⟨rfl, rfl⟩⟩ :=
        hserves.running.moves_close hmove
      · exact ⟨hall, _, _, hserves.keep hrunning hmoves hjob⟩
      · exact ⟨hall, _, _, hserves.rotate hrunning hmoves hjob⟩
  · rcases carryOut_running hup hserves.running hserves.safe hcarry with
      ⟨p', hs', hrunning, hsafe, harch, -, hjob⟩ | rfl
    · rw [hs']
      exact ⟨hall, l, b, hrunning, hsafe, harch.trans hserves.archiving, hserves.index.same,
        hserves.back.same, fun it hit => committed_append (hserves.cache it hit), hjob ▸ hserves.held⟩
    · exact ⟨hall, hserves.left⟩
  · exact ⟨hall, hserves.left⟩
  · refine ⟨hall, ?_⟩
    rcases hserves.running.cutDir hcut with hdead | ⟨b', hrec, hclosed, hb'⟩
    · exact Or.inr (Or.inl hdead)
    · refine Or.inr (Or.inr ⟨b', hrec, hserves.safe.crashed hclosed, ?_⟩)
      have hlast : p.log.lastRevision = b.lastRevision := by
        rw [hserves.running.index.lastRevision, hserves.running.job.frame.2]
      have hpub := hserves.back.published hserves.running.recovers.wf
        (cut.survivors b.lastRevision)
      have hadded : added p (.crash cut) = cut.survivors b.lastRevision := by
        rw [← hlast]
        rfl
      show Tells (s.committed ++ added p (.crash cut)) b'
      rw [hadded]
      rcases hb' with rfl | rfl
      · exact hpub
      · exact hpub.rotate

theorem after_down (hdown : s.system.status = .down dir) (a : Action) (system : LogSystem) :
    (s.after a system).system = system ∧ (s.after a system).committed = s.committed := by
  unfold after
  rw [hdown]
  cases a <;> exact ⟨rfl, rfl⟩

/-- No process runs after the action either. -/
theorem Faithful.stays_down (h : s.Faithful) {dir' : Dir} (hdown : s.system.status = .down dir)
    (hdown' : system.status = .down dir') (hdir' : Left dir' system.archive s.committed) :
    (s.after a system).Faithful := by
  obtain ⟨hsystem, hcommitted⟩ := after_down hdown a system
  unfold Faithful
  rw [hsystem, hcommitted, hdown']
  exact ⟨h.1, hdir'⟩

theorem tells_emptyLog (opts : Options) : Tells [] (emptyLog opts) :=
  ⟨rfl, fun r hr => by cases hr⟩

/-- The log is opened. -/
theorem Faithful.opens (h : s.Faithful) (hdown : s.system.status = .down dir) (opts : Options)
    {log : DiskLog} (hrefines : Refines log l) (hsafe : Safe s.system.archive log.queue l)
    (harch : log.archiving = s.system.archiving) (htells : Tells s.committed l) :
    (s.after (.start opts) { s.system with status := .up { log := log } }).Faithful := by
  unfold after
  rw [hdown]
  refine ⟨h.1, l, l, running_of_refines hrefines, hsafe, harch, htells, htells,
    nofun, Holding.nothing l⟩

/-- What the log does while no process runs. -/
theorem Faithful.act_down (h : s.Faithful) (hdown : s.system.status = .down dir)
    (hstep : s.system.step a = some system) : (s.after a system).Faithful := by
  rcases h.down hdown with ⟨rfl, hempty, hnone⟩ | hdead | ⟨b, hrec, hsafe, htells⟩
  · rcases step_empty hdown hempty hstep with
      ⟨opts, log, rfl, -, rfl, hrefines, harch, hqueue⟩ | ⟨dir', rfl, hdir'⟩
    · refine h.opens hdown opts hrefines ?_ harch (hnone ▸ tells_emptyLog _)
      rw [hqueue]
      exact safe_empty hempty _
    · refine h.stays_down hdown rfl ?_
      rcases hdir' with rfl | hdead | hrec
      · exact Or.inl ⟨rfl, hempty, hnone⟩
      · exact Or.inr (Or.inl hdead)
      · exact Or.inr (Or.inr ⟨_, hrec, safe_empty hempty _, hnone ▸ tells_emptyLog _⟩)
  · obtain ⟨dir', rfl, hdead'⟩ := step_dead hdown hdead hstep
    exact h.stays_down hdown rfl (Or.inr (Or.inl hdead'))
  · rcases step_left hdown hrec hsafe hstep with
      ⟨opts, log, rfl, -, rfl, hrefines, harch, hsafe'⟩ | ⟨dir', rfl, hrec'⟩
    · exact h.opens hdown opts hrefines ⟨hsafe'.archived, hsafe'.queued⟩ harch
        ⟨htells.last, htells.records⟩
    · exact h.stays_down hdown rfl (Or.inr (Or.inr ⟨b, hrec', hsafe, htells⟩))

/-! ## `GetLogEntry` -/

section

variable (h : s.Serves p l b)
include h

/-- The bytes that a closed file is mapped from are those of the file. -/
theorem Serves.fileData (hg : g ∈ l.closed) (hdesc : Describes f g)
    (hdata : fileData p.log.dir f = .ok data) : data = encodeFile g.records := by
  have hwhole := hdesc.lookup_of_fileData (fun _ => h.running.job.content hg) hdata
  rw [hdesc.fileData hwhole] at hdata
  exact (Except.ok.inj hdata).symm

/-- Mapping and indexing a file on first read. -/
theorem Serves.loaded (hup : s.system.status = .up p) (r : Nat) :
    ∃ p', (s.loaded p r).system.status = .up p' ∧ (s.loaded p r).Serves p' l b ∧
      (s.loaded p r).committed = s.committed := by
  unfold CachedLog.loaded
  split
  · exact ⟨p, hup, h, rfl⟩
  · next f hfind =>
    split
    · exact ⟨p, hup, h, rfl⟩
    · next hactive =>
      have hf : f ∈ p.log.closed := by
        have hfiles := ((h.running.index.findFile_iff h.running.wf).mp hfind).1
        rcases mem_append.mp hfiles with hf | hf
        · exact hf
        · exact absurd (mem_singleton.mp hf) hactive
      obtain ⟨g, hg, hdesc⟩ := Indexes.forall₂_mem_left h.running.index.closed hf
      refine ⟨_, rfl, ?_, rfl⟩
      refine ⟨(h.running.reindex (forall₂_map_describes h.running.index.closed
        fun x g' hg' hx => ?_) h.running.index.active h.running.index.indexed rfl).1, h.safe,
        h.archiving, h.index, h.back, h.cache, h.held.hold hg hdesc fun data => h.fileData hg hdesc⟩
      split
      · refine hx.loaded fun data hdata => ?_
        rw [h.view g' (mem_append_left _ hg')] at hdata
        exact ⟨_, List.Sublist.refl _, (Option.some.inj hdata).symm⟩
      · exact hx

/-- What is decoded from a file was committed. -/
theorem Serves.fetched (htyped : ∀ y ∈ s.committed, TypedRecord y) {m : Bytes}
    (hfetch : s.fetch p r = .ok m) (hdecode : D.decode m = some x) : s.Committed r x := by
  obtain ⟨y, hy, rfl⟩ := h.fetch_iff.mp hfetch
  rw [h.decode htyped D hy] at hdecode
  cases hdecode
  exact h.committed hy

/-- What is cached was committed. -/
theorem Serves.cache_get (hget : (s.cache.get r).2 = some x) : s.Committed r x := by
  obtain ⟨it, hit, rfl, rfl⟩ := (s.cache.get_spec r).2 x hget
  exact h.cache it hit

theorem Serves.decoded_fetch (htyped : ∀ y ∈ s.committed, TypedRecord y) (D : Decoder)
    (hx : (r, x) ∈ l.records) : decoded D r (s.fetch p r) = .ok x := by
  rw [h.fetch_iff.mpr ⟨x, hx, rfl⟩, decoded, h.decode htyped D hx]

/-- What `GetLogEntry` returns, from the cache or from a file. -/
theorem Serves.getLogEntry (htyped : ∀ y ∈ s.committed, TypedRecord y) (D : Decoder)
    (hx : (r, x) ∈ l.records) : s.getLogEntry D p r = .ok x := by
  unfold CachedLog.getLogEntry
  split
  · next record hcache =>
    exact congrArg _ (Option.some.inj ((h.cache_get hcache).2.symm.trans (h.committed hx).2))
  · exact h.decoded_fetch htyped D hx

end

/-- What the sections of a call do to the cache. -/
theorem Faithful.withCache (h : s.Faithful) (hup : s.system.status = .up p) {cache : RecordCache}
    (hcache : ∀ it ∈ cache.ll, it ∈ s.cache.ll ∨ s.Committed it.revision it.record) :
    Faithful { s with cache := cache } := by
  obtain ⟨l, b, hserves⟩ := h.up hup
  refine ⟨h.1, ?_⟩
  rw [hup]
  exact ⟨l, b, hserves.running, hserves.safe, hserves.archiving, hserves.index, hserves.back,
    fun it hit => (hcache it hit).elim (hserves.cache it) id, hserves.held⟩

/-- What they do to the mappings. -/
theorem Faithful.loaded (h : s.Faithful) (hup : s.system.status = .up p) (rd : EntryRead) :
    (EntryRead.loaded s p rd).Faithful ∧ (EntryRead.loaded s p rd).committed = s.committed := by
  unfold EntryRead.loaded
  split
  · next r =>
    obtain ⟨l, b, hserves⟩ := h.up hup
    obtain ⟨p', hup', hserves', hcommitted⟩ := hserves.loaded hup r
    refine ⟨?_, hcommitted⟩
    unfold Faithful
    rw [hup', hcommitted]
    exact ⟨h.1, l, b, hserves'⟩
  · exact ⟨h, rfl⟩

/-- What is read and decoded was committed. -/
theorem Serves.answered (h : s.Serves p l b) (htyped : ∀ y ∈ s.committed, TypedRecord y)
    (hanswer : EntryRead.answer D s p r none = .ok x) : s.Committed r x := by
  simp only [EntryRead.answer, decoded] at hanswer
  split at hanswer
  · cases hanswer
  · next m hfetch =>
    split at hanswer
    · cases hanswer
    · next hdecode =>
      cases hanswer
      exact h.fetched htyped hfetch hdecode

theorem Faithful.act (h : s.Faithful) (htyped : Typed a) (hstep : s.system.step a = some system) :
    (s.after a system).Faithful := by
  cases hstatus : s.system.status with
  | down dir => exact h.act_down hstatus hstep
  | up p => exact h.act_up hstatus htyped hstep

theorem committed_after (s : CachedLog) (a : Action) (system : LogSystem) :
    ∃ more, (s.after a system).committed = s.committed ++ more := by
  unfold after
  split
  · refine ⟨[], ?_⟩
    rw [append_nil]
    split <;> rfl
  · next p _ =>
    refine ⟨added p a, ?_⟩
    dsimp only
    split <;> rfl

/-! ## `Read` -/

theorem decodeCalls_encoded {rs : List (Nat × LogRecord)}
    (hrs : ∀ r ∈ rs, D.decode (encodeRecord r.1 r.2) = some r.2) :
    decodeCalls D (encoded rs) = (rs, none) := by
  induction rs with
  | nil => rfl
  | cons r rs ih =>
    have hrest := ih fun x hx => hrs x (mem_cons_of_mem _ hx)
    show decodeCalls D ((r.1, encodeRecord r.1 r.2) :: encoded rs) = _
    rw [decodeCalls, hrs r mem_cons_self]
    simp only [hrest]

/-- `Read` passes the records of the files to its callback, up to the first file that is not whole. -/
theorem readCalls_cases (fromRevision : Nat) (hfs : List.Forall₂ Describes fs gs) (hwf : ∀ g ∈ gs, g.WF)
    (hcontent : ∀ g ∈ gs, ∀ data, dir.lookup g.name = some data →
      ∃ rs, rs.Sublist g.records ∧ data = encodeFile rs)
    (hdecode : ∀ r ∈ gs.flatMap LogFile.records, D.decode (encodeRecord r.1 r.2) = some r.2) :
    readCalls D dir fromRevision fs =
        ((gs.flatMap LogFile.records).filter (fun r => fromRevision ≤ r.1), none) ∨
      (readCalls D dir fromRevision fs).1 <+:
          (gs.flatMap LogFile.records).filter (fun r => fromRevision ≤ r.1) ∧
        ∃ g ∈ gs, dir.lookup g.name ≠ some (encodeFile g.records) := by
  induction hfs with
  | nil => exact Or.inl rfl
  | @cons f g fs gs hdesc _ ih =>
    have hrest := ih (fun x hx => hwf x (mem_cons_of_mem _ hx))
      (fun x hx => hcontent x (mem_cons_of_mem _ hx))
      (fun x hx => hdecode x (by rw [flatMap_cons]; exact mem_append_right _ hx))
    have hcalls : decodeCalls D
        (encoded (g.records.filter fun r => decide (fromRevision ≤ r.1))) =
          (g.records.filter fun r => decide (fromRevision ≤ r.1), none) := by
      refine decodeCalls_encoded fun x hx => hdecode x ?_
      rw [flatMap_cons]
      exact mem_append_left _ (List.mem_of_mem_filter hx)
    rw [flatMap_cons, List.filter_append, readCalls]
    by_cases hwhole : (f.count = 0 ∨ f.last < fromRevision) ∨
        dir.lookup g.name = some (encodeFile g.records)
    · rw [readFile_eq hdesc (hwf g mem_cons_self) hwhole]
      simp only [hcalls]
      rcases hrest with heq | ⟨hpre, x, hx, hne⟩
      · rw [heq]
        exact Or.inl rfl
      · exact Or.inr ⟨(List.prefix_append_right_inj _).mpr hpre, x, mem_cons_of_mem _ hx, hne⟩
    · obtain ⟨hskip, hne⟩ := not_or.mp hwhole
      refine Or.inr ⟨?_, g, mem_cons_self, hne⟩
      rw [readFile, if_neg hskip]
      cases hfile : fileData dir f with
      | error e => exact List.nil_prefix
      | ok data => exact absurd (hdesc.lookup_of_fileData (hcontent g mem_cons_self) hfile) hne

/-! ## All ways to read -/

/-- The files hold the records of the log that the index describes. -/
theorem Serves.present_iff (h : s.Serves p l b) : s.Present p r ↔ ∃ x, (r, x) ∈ l.records := by
  have hcontent : ∀ {f g}, f ∈ p.log.files → g ∈ l.files → Describes f g →
      s.content p f = some (encodeFile g.records) := by
    intro f g hf hg hdesc
    unfold content
    split
    · next hactive =>
      have hname : g.name = l.active.name := by
        rw [← hdesc.name, hactive, h.running.index.active.name]
      have hfirst : g.first = l.active.first := by rw [← g.first_name, hname, LogFile.first_name]
      rw [h.running.wf.file_eq hg (mem_append_right _ (mem_singleton.mpr rfl)) hfirst,
        hdesc.name, hname]
      exact h.running.job.active
    · rw [hdesc.name]
      exact h.view g hg
  have hscan : ∀ {g}, g ∈ l.files → scanned (encodeFile g.records) = g.records.map Prod.fst := by
    intro g hg
    have hstorable : ∀ x ∈ g.records, Storable x := fun x hx =>
      h.storable (mem_flatMap.mpr ⟨g, hg, hx⟩)
    have heq := scan_encodeFile hstorable tornTail_nil
    rw [append_nil] at heq
    rw [scanned, heq]
  constructor
  · rintro ⟨f, hf, data, hdata, hr⟩
    obtain ⟨g, hg, hdesc⟩ := Indexes.forall₂_mem_left h.running.index.files hf
    cases (hcontent hf hg hdesc).symm.trans hdata
    rw [hscan hg] at hr
    obtain ⟨x, hx, rfl⟩ := mem_map.mp hr
    exact ⟨x.2, mem_flatMap.mpr ⟨g, hg, hx⟩⟩
  · rintro ⟨x, hx⟩
    obtain ⟨g, hg, hgx⟩ := mem_flatMap.mp hx
    obtain ⟨f, hf, hdesc⟩ := forall₂_mem h.running.index.files hg
    exact ⟨f, hf, _, hcontent hf hg hdesc, (hscan hg).symm ▸ mem_map.mpr ⟨_, hgx, rfl⟩⟩

/-- Whichever way the record of the revision is read, it is this one. -/
structure ReadsAs (D : Decoder) (s : CachedLog) (p : Process) (r : Nat) (x : LogRecord) : Prop where
  committed : s.Committed r x
  call : s.getLogEntry D p r = .ok x
  cache : ∀ y, (s.cache.get r).2 = some y → y = x
  file : ∃ m, s.fetch p r = .ok m ∧ D.decode m = some x
  /-- `Read` passes no other record of the revision to its callback. -/
  only : ∀ fromRevision y, (r, y) ∈ (readCalls D p.log.dir fromRevision p.log.files).1 → y = x
  /-- It passes the record, outside the moment between the rename and the swap of a compaction, in which it may
  find a rewritten file too short. -/
  passes : replaced p.job = [] → ∀ fromRevision ≤ r,
    (r, x) ∈ (readCalls D p.log.dir fromRevision p.log.files).1 ∧
      (readCalls D p.log.dir fromRevision p.log.files).2 = none

theorem Faithful.readsAs (h : s.Faithful) (hup : s.system.status = .up p) (hr : s.Present p r) :
    ∃ x, s.ReadsAs D p r x := by
  obtain ⟨l, b, hserves⟩ := h.up hup
  obtain ⟨x, hx⟩ := hserves.present_iff.mp hr
  have hcommitted := hserves.committed hx
  -- A revision has one committed record.
  have hone : ∀ {y}, s.Committed r y → y = x := fun hy =>
    Option.some.inj (hy.2.symm.trans hcommitted.2)
  have hcontent : ∀ g ∈ l.files, ∀ data, p.log.dir.lookup g.name = some data →
      ∃ rs, rs.Sublist g.records ∧ data = encodeFile rs := by
    intro g hg data hdata
    rcases mem_append.mp hg with hg | hg
    · exact hserves.running.job.content hg hdata
    · rw [mem_singleton.mp hg, hserves.running.job.active] at hdata
      rw [mem_singleton.mp hg]
      exact ⟨_, List.Sublist.refl _, (Option.some.inj hdata).symm⟩
  have hcalls := fun fromRevision => readCalls_cases fromRevision
    hserves.running.index.files (fun g hg => hserves.running.wf.file_wf hg) hcontent
    fun y hy => hserves.decode h.1 D hy
  refine ⟨x, hcommitted, hserves.getLogEntry h.1 D hx, fun y hy => hone (hserves.cache_get hy),
    ⟨_, hserves.fetch_iff.mpr ⟨x, hx, rfl⟩, hserves.decode h.1 D hx⟩, fun fromRevision y hy => ?_,
    fun hjob fromRevision hfrom => ?_⟩
  · rcases hcalls fromRevision with heq | ⟨hpre, -⟩
    · rw [heq] at hy
      exact hone (hserves.committed (List.mem_of_mem_filter hy))
    · exact hone (hserves.committed (List.mem_of_mem_filter (hpre.subset hy)))
  · rcases hcalls fromRevision with heq | ⟨-, g, hg, hne⟩
    · rw [heq]
      exact ⟨List.mem_filter.mpr ⟨hx, decide_eq_true hfrom⟩, rfl⟩
    · refine absurd ?_ hne
      rcases mem_append.mp hg with hg | hg
      · exact (hserves.running.job.whole hg).resolve_right (by simp [hjob])
      · rw [mem_singleton.mp hg]
        exact hserves.running.job.active

/-- The call is about another revision, or has returned this record, or gets it when it reads now, or has
failed before. -/
def EntryRead.Gives (D : Decoder) (s : CachedLog) (p : Process) (r : Nat) (x : LogRecord) : EntryRead → Prop
  | .missed _ => True
  | .found r' _ retired => r' = r → answer D s p r retired = .ok x
  | .holding r' y => r' = r → y = x
  | .done r' answer => r' = r → ∀ y, answer = .ok y → y = x

theorem ReadsAs.gives (hx : s.ReadsAs D p r x) {rd : EntryRead} (h : rd.Sound s.Committed s.Committed) :
    EntryRead.Gives D s p r x rd := by
  have hone : ∀ {y}, s.Committed r y → y = x := fun hy =>
    Option.some.inj (hy.2.symm.trans hx.committed.2)
  cases rd with
  | missed _ => trivial
  | found r' active retired =>
    obtain rfl : retired = none := h
    obtain ⟨m, hfetch, hdecode⟩ := hx.file
    intro _
    simp only [EntryRead.answer, hfetch, decoded, hdecode]
  | holding r' y =>
    rintro rfl
    exact hone h
  | done r' answer =>
    rintro rfl y hy
    exact hone (h y hy)

end

end CachedLog

namespace ReadingLog

open CachedLog (EntryRead)

variable {D : Decoder} {s s' : ReadingLog}

/-- What holds in every state of a run that meets the condition. -/
structure Faithful (s : ReadingLog) : Prop where
  log : s.log.Faithful
  reads : ∀ rd ∈ s.reads, rd.Sound s.log.Committed s.log.Committed

theorem Faithful.step {a : Action} (h : s.Faithful) (hspares : s.SparesReads a)
    (hstep : s.step D a = some s') : s'.Faithful := by
  unfold ReadingLog.step at hstep
  split at hstep
  · next a =>
    split at hstep
    · next htyped =>
      obtain ⟨system, hsystem, rfl⟩ := Option.map_eq_some_iff.mp hstep
      refine ⟨h.log.act htyped hsystem, ?_⟩
      have hmono : ∀ r record, s.log.Committed r record → (s.log.after a system).Committed r record := by
        intro r record hcommitted
        obtain ⟨more, hmore⟩ := CachedLog.committed_after s.log a system
        rw [CachedLog.Committed, hmore]
        exact CachedLog.committed_append hcommitted
      dsimp only
      split
      · intro rd hrd
        obtain ⟨y, hy, rfl⟩ := List.mem_map.mp hrd
        refine ((h.reads y hy).retire fun r hr => ?_).mono (fun r record _ => hmono r record) hmono
        rw [hspares y hy r hr]
        rfl
      · exact fun rd hrd => by cases hrd
    · cases hstep
  · cases hstep
  · next r p hup =>
    cases hstep
    obtain ⟨l, b, hserves⟩ := h.log.up hup
    refine ⟨h.log.withCache hup fun it hit => Or.inl ((s.log.cache.get_spec r).1 it hit), fun rd hrd => ?_⟩
    rcases List.mem_append.mp hrd with hrd | hrd
    · exact h.reads rd hrd
    · rw [List.mem_singleton.mp hrd]
      exact Reading.Sound.look fun record hget => hserves.cache_get hget
  · next n p hup =>
    cases hstep
    exact ⟨h.log, Reading.sound_modify h.reads n fun rd hrd => hrd.find _⟩
  · next n p hup =>
    cases hstep
    obtain ⟨l, b, hserves⟩ := h.log.up hup
    have hreads := Reading.sound_modify h.reads n (f := EntryRead.read D s.log p) fun rd hrd =>
      hrd.read (fun _ _ => id) (fun r record hanswer => hserves.answered h.log.1 hanswer) _
    cases hn : s.reads[n]? with
    | none => exact ⟨h.log, hreads⟩
    | some rd =>
      obtain ⟨hlog, hcommitted⟩ := h.log.loaded hup rd
      refine ⟨hlog, ?_⟩
      dsimp only [Option.elim_some]
      unfold CachedLog.Committed
      rw [hcommitted]
      exact hreads
  · next n p hup =>
    cases hstep
    exact ⟨h.log.withCache hup fun it hit => Reading.mem_cache (n := n) h.reads hit,
      Reading.sound_modify h.reads n fun rd hrd => hrd.put fun _ _ => id⟩

/-- In every state of a run in which no compaction swaps a file out of the index that a call of `GetLogEntry`
has found and not yet read, whichever way the record of a revision that the files hold is read, it is the one
that was committed. -/
theorem read_paths_agree (D : Decoder) {mmap archiving : Bool} {actions : List Action}
    (heach : Transition.Each (step D) SparesReads (init mmap archiving) actions) :
    Transition.Always (step D) (fun s => ∀ p r, s.log.system.status = .up p → s.log.Present p r →
      ∃ x, s.log.ReadsAs D p r x ∧ ∀ rd ∈ s.reads, EntryRead.Gives D s.log p r x rd)
      (init mmap archiving) actions := by
  intro before t hpre ht p r hup hr
  have h : t.Faithful := Transition.run_invariant_each (K := Faithful)
    (fun _ _ _ h hspares hstep => h.step hspares hstep) ht (heach.mono hpre)
    ⟨CachedLog.faithful_init mmap archiving, nofun⟩
  obtain ⟨x, hx⟩ := h.log.readsAs hup hr
  exact ⟨x, hx, fun rd hrd => hx.gives (h.reads rd hrd)⟩

/-- A call of `GetLogEntry` that nothing interleaves with, the `n`th. -/
def getEntry (revision n : Nat) : List Action := [.get revision, .find n, .read n, .put n]

/-- Steps of the log. -/
def acts (as : List LogSystem.Action) : List Action := as.map .act

/-- Two files are read, merged, read again, and read by the next process. -/
def readsAroundMerge : List Action :=
  acts twoFiles ++ getEntry 1 0 ++ acts mergeTwo ++ getEntry 1 1 ++ getEntry 2 2 ++
    acts [.compactStep allLive, .compactStep allLive, .crash {}, .start ⟨0, 0⟩] ++ getEntry 2 0

/-- The log is open and its files have the revision. -/
def shows (s : ReadingLog) (revision : Nat) : Bool :=
  match s.log.system.status with
  | .up p => decide (s.log.Present p revision)
  | .down _ => false

theorem shows_up {revision : Nat} (h : s.shows revision = true) :
    ∃ p, s.log.system.status = .up p ∧ s.log.Present p revision := by
  unfold shows at h
  split at h
  · next p hp => exact ⟨p, hp, of_decide_eq_true h⟩
  · cases h

theorem read_paths_agree_merged : ∃ s p,
    Transition.run (step logDecoder) (init true false) readsAroundMerge = some s ∧
    s.log.system.status = .up p ∧ s.log.Present p 2 ∧ ∃ x, s.log.ReadsAs logDecoder p 2 x := by
  obtain ⟨s, hs, hup⟩ : ∃ s, Transition.run (step logDecoder) (init true false) readsAroundMerge = some s ∧
      s.shows 2 = true := by decide +kernel
  obtain ⟨p, hp, hpresent⟩ := shows_up hup
  obtain ⟨x, hx, -⟩ := read_paths_agree logDecoder (by decide +kernel) readsAroundMerge s List.prefix_rfl hs p 2
    hp hpresent
  exact ⟨s, p, hs, hp, hpresent, x, hx⟩

/-- Three files of one record each are merged. -/
def mergeThree : List LogSystem.Action :=
  [.start ⟨1, 0⟩, .commit 0 [putKey 97], .tick, .commit 1 [putKey 98], .tick, .commit 2 [putKey 99], .tick,
    .compact 3] ++ List.replicate 15 (.compactStep allLive)

/-- A call has found the merged file when a compaction drops its first record and swaps it.  The call reads the
new file at the place that the old one had the record of revision 2, and returns that of revision 3. -/
theorem read_returns_another : ∃ s, Transition.run (step logDecoder) (init true false)
    (acts mergeThree ++ [.get 2, .find 0] ++
      acts (.compact 3 :: List.replicate 4 (.compactStep (liveAbove 97))) ++ [.read 0, .put 0]) = some s ∧
    s.shows 2 = true ∧ s.log.committed[2 - 1]? = some (putKey 98) ∧
    s.reads.map Reading.returned = [some (putKey 99)] := by
  decide +kernel

end ReadingLog

end CloudEtcd
