/-
# CloudEtcd.LogSystem.Uploads — the files that the archiver is to upload.

An upload names a file; the archiver reads that file when its turn comes.  Two things can have happened
to it by then.  Compaction may have merged it into another file and removed it: the archiver then
retries forever, and everything behind that upload waits.  That happens exactly when a compaction removes
a file without a look at the queue (`uploads_present_iff`).  Or a compacted file may have been rewritten
under its own name, before the upload has read it or after: if the archive has the older content, `Upload`
reports a conflict and the process panics.  No compaction that looks at the queue, the archive and the upload
in flight brings that about (`uploads_agree`).
-/
import CloudEtcd.LogSystem.Invariant

namespace CloudEtcd

open LogCodec Process

variable {p' : Process}

namespace Process

variable {p : Process} {n : FileName}

/-- The names of the uploads that are queued or being carried out. -/
def queued (p : Process) : List FileName :=
  (p.pending.filter fun op => !op.remove).map ArchiverOp.name

theorem mem_queued : n ∈ p.queued ↔ ∃ op ∈ p.pending, op.remove = false ∧ op.name = n := by
  simp [queued, and_assoc]

/-- Effects that leave the pending operations alone leave the uploads alone. -/
theorem queued_congr (h : p'.pending = p.pending) : p'.queued = p.queued := by
  rw [queued, queued, h]

theorem mem_queued_append {op : ArchiverOp} {archiving : Bool}
    (h : p'.pending = p.pending ++ if archiving then [op] else []) (hn : n ∈ p'.queued) :
    n ∈ p.queued ∨ op.remove = false ∧ op.name = n := by
  obtain ⟨x, hx, hup, rfl⟩ := mem_queued.mp hn
  rw [h] at hx
  rcases List.mem_append.mp hx with hx | hx
  · exact Or.inl (mem_queued.mpr ⟨x, hx, hup, rfl⟩)
  · split at hx
    · rw [List.mem_singleton.mp hx] at hup ⊢
      exact Or.inr ⟨hup, rfl⟩
    · cases hx

/-- The archiver has finished an operation. -/
theorem mem_queued_finished {op : ArchiverOp} (hcurrent : p.current = some op) (p' : Process)
    (hcurrent' : p'.current = none) (hqueue : p'.log.queue = p.log.queue) (hn : n ∈ p'.queued) :
    n ∈ p.queued := by
  obtain ⟨x, hx, hup, rfl⟩ := mem_queued.mp hn
  refine mem_queued.mpr ⟨x, ?_, hup, rfl⟩
  rw [LogSystem.pending_of_current hcurrent]
  have : p'.pending = p.log.queue := by simp [pending, hcurrent', hqueue]
  rw [this] at hx
  exact List.mem_cons_of_mem _ hx

end Process

variable {p : Process}

theorem Safe.queued_within {archive : Dir} {b : FilesystemLog}
    (h : Safe archive p.pending b) {n : FileName} (hn : n ∈ p.queued) : Within b.closed n := by
  obtain ⟨op, hop, hup, rfl⟩ := mem_queued.mp hn
  exact h.queued op hop hup

namespace LogSystem

variable {s s' : LogSystem} {a : Action}

/-! ## The parts of the state -/

/-- The log's directory. -/
def dir (s : LogSystem) : Dir :=
  match s.status with
  | .down dir => dir
  | .up p => p.log.dir

/-- The names of the uploads that are queued or being carried out. -/
def queued (s : LogSystem) : List FileName :=
  match s.status with
  | .down _ => []
  | .up p => p.queued

/-- What the step does to the files and the queue, beside commits and rotations. -/
def touch (s : LogSystem) (a : Action) : Touch :=
  match s.status with
  | .down _ => .nothing
  | .up p => p.touchOf a

theorem dir_up (h : s.status = .up p) : s.dir = p.log.dir := by
  rw [dir, h]

theorem queued_up (h : s.status = .up p) : s.queued = p.queued := by
  rw [queued, h]

theorem touch_up (h : s.status = .up p) (a : Action) : s.touch a = p.touchOf a := by
  rw [touch, h]

theorem touch_down {d : Dir} (h : s.status = .down d) (a : Action) : s.touch a = .nothing := by
  rw [touch, h]

/-- After a start the uploads are files of the directory that the archive lacks. -/
theorem queued_started (h : s.Sound) {d : Dir} (hdown : s.status = .down d)
    (hstep : s.step a = some s') :
    s'.archive = s.archive ∧ ∀ n ∈ s'.queued, n ∈ s'.dir ∧ n ∉ s'.archive := by
  rcases LogSystem.step_down hdown hstep with ⟨opts, log, -, hopen, rfl⟩ |
    ⟨opts, dir', e, -, hopen, rfl⟩ | ⟨k, rfl⟩ | ⟨log, k, hopen, hnot, rfl⟩
  · refine ⟨rfl, fun n hn => ?_⟩
    change n ∈ Process.queued { log := log } at hn
    obtain ⟨op, hop, hup, rfl⟩ := mem_queued.mp hn
    have hqueue : op ∈ log.queue := hop
    rcases h.down hdown with ⟨rfl, hempty⟩ | hdead | ⟨b, hrec, hsafe⟩
    · obtain ⟨log', hopen', -, -, hnone, -⟩ := openLog_empty opts s.archiving
      rw [hempty, hopen'] at hopen
      cases hopen
      rw [hnone] at hqueue
      cases hqueue
    · obtain ⟨dir', e, hopen', -⟩ := hdead.openLog opts s.archiving s.archive
      rw [hopen'] at hopen
      cases hopen
    · obtain ⟨log', hopen', hrefines, -, hqueue'⟩ := opened hrec hsafe opts
      rw [hopen'] at hopen
      cases hopen
      rw [hqueue'] at hqueue
      split at hqueue
      · rcases List.mem_append.mp hqueue with hqueue | hqueue
        · obtain ⟨m, -, rfl⟩ := List.mem_map.mp hqueue
          cases hup
        · obtain ⟨g, hg, rfl⟩ := List.mem_map.mp hqueue
          obtain ⟨hclosed, hmissing⟩ := List.mem_filter.mp hg
          refine ⟨Dir.mem_iff_lookup.mpr ⟨_, hrefines.dir.holds g ?_⟩, by simpa using hmissing⟩
          exact List.mem_append_left _ hclosed
      · cases hqueue
  · exact ⟨rfl, fun n hn => by cases hn⟩
  · exact ⟨rfl, fun n hn => by cases hn⟩
  · exact ⟨rfl, fun n hn => by cases hn⟩

/-! ## What a move does to the uploads and their files -/

/-- What the name has after the step. -/
def after (n : FileName) (data : Option Bytes) : Touch → Option Bytes
  | .renames m d => if n = m then some d else data
  | .removes m => if n = m then none else data
  | .nothing | .queues _ => data

section Effect

variable {archive : Dir} {n : FileName} {t : Touch} {p p' : Process} {l b l' b' : FilesystemLog}

theorem queued_effect (h : StepEffect p l b t p' l' b') (hn : n ∈ p.queued) : n ∈ p'.queued := by
  obtain ⟨x, hx, hrest⟩ := mem_queued.mp hn
  refine mem_queued.mpr ⟨x, ?_, hrest⟩
  cases h <;> simp [*]

/-- Beside the compactions' only the upload of the active file is queued, by a rotation. -/
theorem queued_cases (hrunning : Running p l b) (heffect : StepEffect p l b t p' l' b')
    (hn : n ∈ p'.queued) :
    n ∈ p.queued ∨ n ∈ p'.log.dir ∧ (n = l.active.name ∨
      ∃ op, t = .queues op ∧ op.remove = false ∧ op.name = n ∧ p'.log.dir = p.log.dir) := by
  cases heffect with
  | stay _ hpending _ | append _ _ _ hpending _ | swap _ _ _ _ hpending _ _
  | rename _ _ _ _ _ hpending _ _ | removal _ hpending _ _ => exact Or.inl (queued_congr hpending ▸ hn)
  | rotate _ hdir hpending _ =>
    refine (mem_queued_append hpending hn).imp_right fun ⟨_, hname⟩ => ⟨?_, Or.inl hname.symm⟩
    rw [hdir, AList.mem_insert, ← hname]
    exact Or.inr (Dir.mem_iff_lookup.mpr ⟨_, hrunning.job.active⟩)
  | enqueue hb _ hdir hpending hname =>
    refine (mem_queued_append hpending hn).imp_right fun ⟨hup, heq⟩ =>
      ⟨?_, Or.inr ⟨_, rfl, hup, heq, hdir⟩⟩
    obtain ⟨g, hg, hgn⟩ := hname hup
    have hclosed := hrunning.recovers.closed
    rw [hb] at hclosed
    rw [hdir, ← heq, ← hgn]
    exact Dir.mem_iff_lookup.mpr ⟨_, hclosed g hg⟩

/-- An effect changes no other file whose upload is queued. -/
theorem lookup_effect (hrunning : Running p l b) (hsafe : Safe archive p.pending b) (hn : n ∈ p.queued)
    (heffect : StepEffect p l b t p' l' b') :
    p'.log.dir.lookup n = after n (p.log.dir.lookup n) t := by
  have hbefore : n.first < l.active.first := by
    have := (hsafe.queued_within hn).first_lt hrunning.recovers.wf
    rwa [hrunning.job.frame.1] at this
  cases heffect with
  | stay hdir _ _ | swap _ _ _ hdir _ _ _ | enqueue _ _ hdir _ _ => rw [hdir, after]
  | append batch _ hdir _ _ =>
    have hne : n ≠ l.active.name := fun heq => by
      rw [heq, l.active.first_name] at hbefore
      exact lt_irrefl _ hbefore
    rw [hdir, DiskLog.appendTo, AList.lookup_insert_ne hne, after]
  | rotate _ hdir _ _ =>
    have hne : n ≠ l.freshName := fun heq => by
      have hfirst := hrunning.wf.active_first
      rw [heq] at hbefore
      change l.lastRevision + 1 < _ at hbefore
      omega
    rw [hdir, AList.lookup_insert_ne hne, after]
  | @rename _ _ group _ kept _ _ _ _ _ hdir _ _ _ =>
    rw [hdir, after]
    split
    · next heq => rw [heq, AList.lookup_insert]
    · next hne => rw [AList.lookup_insert_ne hne]
  | removal hdir _ _ _ =>
    rw [hdir, after]
    split
    · next heq => rw [heq, AList.lookup_erase]
    · next hne => rw [AList.lookup_erase_ne hne]

end Effect

/-! ## Every upload has its file -/

/-- The directory has the file of every upload that is queued or being carried out. -/
def Present (s : LogSystem) : Prop := ∀ n ∈ s.queued, n ∈ s.dir

instance decidablePresent (s : LogSystem) : Decidable s.Present :=
  inferInstanceAs (Decidable (∀ n ∈ s.queued, n ∈ s.dir))

/-- A compaction removes no file whose upload is queued or being carried out. -/
def Spares (queued : List FileName) : Touch → Prop
  | .removes n => n ∉ queued
  | _ => True

instance decidableSpares (queued : List FileName) : ∀ t, Decidable (Spares queued t)
  | .removes n => inferInstanceAs (Decidable (n ∉ queued))
  | .nothing | .renames _ _ | .queues _ => isTrue trivial

/-- The condition on a step. -/
def SparesQueued (s : LogSystem) (a : Action) : Prop := Spares s.queued (s.touch a)

instance decidableSparesQueued (s : LogSystem) (a : Action) : Decidable (s.SparesQueued a) :=
  decidableSpares _ _

section Present

variable {archive : Dir} {t : Touch} {p p' : Process} {l b l' b' : FilesystemLog}

/-- An effect keeps the files of the uploads exactly if it spares them. -/
theorem present_effect (hrunning : Running p l b) (hsafe : Safe archive p.pending b)
    (h : ∀ n ∈ p.queued, n ∈ p.log.dir) (heffect : StepEffect p l b t p' l' b') :
    (∀ n ∈ p'.queued, n ∈ p'.log.dir) ↔ Spares p.queued t := by
  have hlookup := fun n hn => lookup_effect (n := n) hrunning hsafe hn heffect
  constructor
  · intro hall
    cases t with
    | removes m =>
      intro hm
      obtain ⟨data, hdata⟩ := Dir.mem_iff_lookup.mp (hall m (queued_effect heffect hm))
      rw [hlookup m hm, after, if_pos rfl] at hdata
      cases hdata
    | nothing | renames _ _ | queues _ => trivial
  · intro hspares n hn
    rcases queued_cases hrunning heffect hn with hold | ⟨hin, -⟩
    · have hin := h n hold
      rw [Dir.mem_iff_lookup] at hin ⊢
      rw [hlookup n hold]
      cases t with
      | nothing | queues _ => exact hin
      | renames m d => grind [after]
      | removes m => grind [after, Spares]
    · exact hin

/-- So does a move. -/
theorem present_move (hrunning : Running p l b) (hsafe : Safe archive p.pending b)
    (h : ∀ n ∈ p.queued, n ∈ p.log.dir) (hmoves : Moves p l b t p' l' b') :
    (∀ n ∈ p'.queued, n ∈ p'.log.dir) ↔ Spares p.queued t := by
  by_cases ht : t = .nothing
  · subst ht
    refine iff_of_true (hmoves.invariant (I := fun p _ b => Safe archive p.pending b ∧
        ∀ n ∈ p.queued, n ∈ p.log.dir) (fun _ _ _ _ _ _ hr hp he _ => ⟨hp.1.effect hr he,
          (present_effect hr hp.1 hp.2 he).mpr trivial⟩) (fun _ _ _ hne => absurd rfl hne) ⟨hsafe, h⟩).2 trivial
  · cases hmoves with
    | refl | tail => exact absurd rfl ht
    | one _ heffect _ => exact present_effect hrunning hsafe h heffect

end Present

theorem present_step (h : s.Sound) (hp : s.Present) (hstep : s.step a = some s') :
    s'.Present ↔ s.SparesQueued a := by
  cases hstatus : s.status with
  | down d =>
    rw [SparesQueued, touch_down hstatus]
    exact iff_of_true (fun n hn => ((queued_started h hstatus hstep).2 n hn).1) trivial
  | up p =>
    obtain ⟨l, b, hrunning, hsafe, -⟩ := h.up hstatus
    have hold : ∀ n ∈ p.queued, n ∈ p.log.dir := by
      rw [Present, queued_up hstatus, dir_up hstatus] at hp
      exact hp
    rw [SparesQueued, touch_up hstatus, queued_up hstatus]
    rcases step_up hstatus hstep with ⟨p', hmove, rfl⟩ | ⟨rfl, hcarry⟩ | ⟨rfl, rfl⟩ |
      ⟨cut, d, rfl, -, rfl⟩
    · obtain ⟨l', b', -, hmoves⟩ := hrunning.move hmove
      exact present_move hrunning hsafe hold hmoves
    · refine iff_of_true ?_ trivial
      obtain ⟨op, hcurrent, hcases⟩ := carryOut_spec hcarry
      have hdone : ∀ p' : Process, p'.current = none → p'.log.queue = p.log.queue →
          p'.log.dir = p.log.dir → ∀ n ∈ p'.queued, n ∈ p'.log.dir := by
        intro p' h1 h2 h3 n hn
        rw [h3]
        exact hold n (mem_queued_finished hcurrent p' h1 h2 hn)
      rcases hcases with ⟨-, rfl⟩ | ⟨-, -, rfl⟩ | ⟨data, -, -, ⟨-, rfl⟩ | ⟨-, rfl⟩ |
        ⟨held, -, -, rfl⟩⟩
      · exact hdone _ rfl rfl rfl
      · exact hp
      · exact hdone _ rfl rfl rfl
      · exact hdone _ rfl rfl rfl
      · exact fun n hn => by cases hn
    · exact iff_of_true (fun n hn => by cases hn) trivial
    · exact iff_of_true (fun n hn => by cases hn) trivial

/-- The archiver's next attempt leaves everything as it is. -/
def Stuck (s : LogSystem) : Prop := ∃ p, s.status = .up p ∧ s.carryOut p = some s

/-- The archiver gets on while the files are there. -/
theorem Present.not_stuck (h : s.Present) : ¬ s.Stuck := by
  rintro ⟨p, hup, hcarry⟩
  obtain ⟨op, hcurrent, hcases⟩ := carryOut_spec hcarry
  have hmoved : ∀ p' : Process, p'.current = none → s.status ≠ .up p' := by
    intro p' hnone heq
    rw [hup] at heq
    cases heq
    rw [hcurrent] at hnone
    cases hnone
  rcases hcases with ⟨-, heq⟩ | ⟨hupload, hmissing, -⟩ | ⟨data, -, -, ⟨-, heq⟩ | ⟨-, heq⟩ |
    ⟨held, -, -, heq⟩⟩
  · exact hmoved { p with current := none } rfl (congrArg status heq)
  · have hqueued : op.name ∈ s.queued := by
      rw [queued_up hup]
      refine mem_queued.mpr ⟨op, ?_, hupload, rfl⟩
      rw [pending_of_current hcurrent]
      exact List.mem_cons_self
    have hin := h _ hqueued
    rw [dir_up hup, Dir.mem_iff_lookup, hmissing] at hin
    obtain ⟨data, hdata⟩ := hin
    cases hdata
  · exact hmoved { p.markArchived op.name with current := none } rfl (congrArg status heq)
  · exact hmoved { p.markArchived op.name with current := none } rfl (congrArg status heq)
  · have hdown := congrArg status heq
    rw [hup] at hdown
    cases hdown

/-- In every state of a run every upload has its file and the archiver gets on, exactly if no step of a
compaction removes a file whose upload is queued or being carried out. -/
theorem uploads_present_iff {archiving : Bool} {as : List Action} {s : LogSystem}
    (hrun : run (init archiving) as = some s) :
    Transition.Always step (fun s => s.Present ∧ ¬ s.Stuck) (init archiving) as ↔
      Transition.Each step SparesQueued (init archiving) as := by
  rw [← Transition.always_iff_each (P := Present) (fun _ _ _ h hstep => Sound.step h hstep)
    (fun _ _ _ h hp hstep => present_step h hp hstep) hrun (sound_init archiving)
    (fun n hn => by cases hn)]
  constructor
  · exact fun h before t hpre ht => (h before t hpre ht).1
  · exact fun h before t hpre ht => ⟨h before t hpre ht, (h before t hpre ht).not_stuck⟩

/-- A transaction that puts one key. -/
def putKey (key : UInt8) : LogRecord := ⟨[{ type := .put, kv := { key := [key] } }]⟩

/-- Every key is live. -/
def allLive : FilesystemLog.LiveFunc := fun _ _ => true

/-- Two files are closed and merged. -/
def mergeTwo : List Action :=
  [.compact 2] ++ List.replicate 5 (.compactStep allLive)

/-- Two files of one record each. -/
def twoFiles : List Action :=
  [.start ⟨0, 0⟩, .commit 0 [putKey 97], .tick, .commit 1 [putKey 98], .tick]

/-- The archiver carries out one operation. -/
def archiveOne : List Action := [.take, .carryOut]

/-- The files are uploaded before they are merged. -/
theorem uploads_present_merged :
    Transition.Always step (fun s => s.Present ∧ ¬ s.Stuck) (init true)
      (twoFiles ++ archiveOne ++ archiveOne ++ mergeTwo ++ List.replicate 2 (.compactStep allLive)) := by
  have hsome : (run (init true) (twoFiles ++ archiveOne ++ archiveOne ++ mergeTwo ++
      List.replicate 2 (.compactStep allLive))).isSome = true := by decide +kernel
  obtain ⟨s, hs⟩ := Option.isSome_iff_exists.mp hsome
  exact (uploads_present_iff hs).mpr (by decide +kernel)

/-- The first of two files is merged and removed while its upload is queued. -/
theorem upload_without_file : ∃ s, run (init true)
    (twoFiles ++ mergeTwo ++ [.compactStep allLive]) = some s ∧ ¬ s.Present :=
  by decide +kernel

/-! ## No upload conflicts with the archive -/

/-- The archive has nothing but this under the name. -/
def NoOther (archive : Dir) (n : FileName) (data : Option Bytes) : Prop :=
  ∀ held ∈ archive.lookup n, ∀ d ∈ data, held = d

instance decidableNoOther (archive : Dir) (n : FileName) (data : Option Bytes) :
    Decidable (NoOther archive n data) :=
  inferInstanceAs (Decidable (∀ held ∈ archive.lookup n, ∀ d ∈ data, held = d))

theorem noOther_of_not_mem {archive : Dir} {n : FileName} (h : n ∉ archive)
    (data : Option Bytes) : NoOther archive n data := fun held hheld =>
  absurd (Dir.mem_iff_lookup.mpr ⟨held, hheld⟩) h

/-- No upload that is queued or being carried out finds another file of its name in the archive. -/
def Agrees (s : LogSystem) : Prop := ∀ n ∈ s.queued, NoOther s.archive n (s.dir.lookup n)

/-- A compaction does not rewrite a file whose upload is queued, and does not queue the upload of a
file, under a name that the archive has with another content. -/
def Agreeing (archive dir : Dir) (queued : List FileName) : Touch → Prop
  | .renames n data => n ∈ queued → NoOther archive n (some data)
  | .queues op => op.remove = false → NoOther archive op.name (dir.lookup op.name)
  | _ => True

instance decidableAgreeing (archive dir : Dir) (queued : List FileName) :
    ∀ t, Decidable (Agreeing archive dir queued t)
  | .renames n data => inferInstanceAs (Decidable (n ∈ queued → NoOther archive n (some data)))
  | .queues op => inferInstanceAs
      (Decidable (op.remove = false → NoOther archive op.name (dir.lookup op.name)))
  | .nothing => isTrue trivial
  | .removes _ => isTrue trivial

/-- The condition on a step. -/
def KeepsNames (s : LogSystem) (a : Action) : Prop := Agreeing s.archive s.dir s.queued (s.touch a)

instance decidableKeepsNames (s : LogSystem) (a : Action) : Decidable (s.KeepsNames a) :=
  decidableAgreeing _ _ _ _

section Agree

variable {archive : Dir} {n : FileName} {t : Touch} {p p' : Process} {l b l' b' : FilesystemLog}

/-- An effect that meets the condition keeps the agreement. -/
theorem agree_effect (hrunning : Running p l b) (hsafe : Safe archive p.pending b)
    (h : ∀ n ∈ p.queued, NoOther archive n (p.log.dir.lookup n))
    (hkeeps : Agreeing archive p.log.dir p.queued t) (heffect : StepEffect p l b t p' l' b') :
    ∀ n ∈ p'.queued, NoOther archive n (p'.log.dir.lookup n) := by
  have hold : ∀ n ∈ p.queued, NoOther archive n (p'.log.dir.lookup n) := by
    intro n hn
    rw [lookup_effect hrunning hsafe hn heffect]
    cases t with
    | nothing | queues _ => exact h n hn
    | renames m d =>
      rw [after]
      split
      · next heq => exact heq ▸ hkeeps (heq ▸ hn)
      · exact h n hn
    | removes m =>
      rw [after]
      split
      · exact fun held _ d hd => by cases hd
      · exact h n hn
  intro n hn
  rcases queued_cases hrunning heffect hn with hn | ⟨-, rfl | ⟨op, rfl, hup, rfl, hdir⟩⟩
  · exact hold n hn
  · refine noOther_of_not_mem ?_ _
    rw [← hrunning.job.frame.1]
    exact active_not_archived hsafe hrunning.recovers.wf
  · exact hdir ▸ hkeeps hup

/-- So does a move. -/
theorem agree_move (hrunning : Running p l b) (hsafe : Safe archive p.pending b)
    (h : ∀ n ∈ p.queued, NoOther archive n (p.log.dir.lookup n)) (hmoves : Moves p l b t p' l' b')
    (hkeeps : Agreeing archive p.log.dir p.queued t) :
    ∀ n ∈ p'.queued, NoOther archive n (p'.log.dir.lookup n) :=
  (hmoves.invariant (I := fun p _ b => Safe archive p.pending b ∧
      ∀ n ∈ p.queued, NoOther archive n (p.log.dir.lookup n))
    (fun _ _ _ _ _ _ hr hp he _ => ⟨hp.1.effect hr he, agree_effect (t := .nothing) hr hp.1 hp.2 trivial he⟩)
    (fun _ _ _ _ he _ => ⟨hsafe.effect hrunning he, agree_effect hrunning hsafe h hkeeps he⟩)
    ⟨hsafe, h⟩).2

/-- A move changes no file that it leaves alone and whose upload is queued. -/
theorem lookup_move (hrunning : Running p l b) (hsafe : Safe archive p.pending b) (hn : n ∈ p.queued)
    (hmoves : Moves p l b t p' l' b')
    (hleaves : after n (p.log.dir.lookup n) t = p.log.dir.lookup n) :
    p'.log.dir.lookup n = p.log.dir.lookup n := by
  refine (hmoves.invariant (I := fun q _ b => Safe archive q.pending b ∧ n ∈ q.queued ∧
      q.log.dir.lookup n = p.log.dir.lookup n)
    (fun _ _ _ _ _ _ hr hp he _ => ⟨hp.1.effect hr he, queued_effect he hp.2.1,
      (lookup_effect hr hp.1 hp.2.1 he).trans hp.2.2⟩)
    (fun _ _ _ _ he _ => ⟨hsafe.effect hrunning he, queued_effect he hn,
      (lookup_effect hrunning hsafe hn he).trans hleaves⟩) ⟨hsafe, hn, rfl⟩).2.2

/-- The archiver's step keeps the agreement. -/
theorem agree_carryOut {s s' : LogSystem} (hup : s.status = .up p) (h : s.Agrees)
    (hcarry : s.carryOut p = some s') : s'.Agrees := by
  have hold : ∀ n ∈ p.queued, NoOther s.archive n (p.log.dir.lookup n) := by
    rw [Agrees, queued_up hup, dir_up hup] at h
    exact h
  obtain ⟨op, hcurrent, hcases⟩ := carryOut_spec hcarry
  rcases hcases with ⟨-, rfl⟩ | ⟨-, -, rfl⟩ | ⟨data, -, hdata, ⟨-, rfl⟩ | ⟨-, rfl⟩ |
    ⟨held, -, -, rfl⟩⟩
  · intro n hn held hheld
    refine hold n (mem_queued_finished hcurrent { p with current := none } rfl rfl hn) held ?_
    by_cases heq : n = op.name
    · change held ∈ (s.archive.erase op.name).lookup n at hheld
      rw [heq, AList.lookup_erase] at hheld
      cases hheld
    · change held ∈ (s.archive.erase op.name).lookup n at hheld
      rwa [AList.lookup_erase_ne heq] at hheld
  · exact h
  · intro n hn held hheld
    have hn' : n ∈ p.queued := mem_queued_finished hcurrent
      { p.markArchived op.name with current := none } rfl rfl hn
    change held ∈ (s.archive.insert op.name data).lookup n at hheld
    by_cases heq : n = op.name
    · intro d hd
      change d ∈ p.log.dir.lookup n at hd
      rw [heq, AList.lookup_insert] at hheld
      rw [heq, hdata] at hd
      exact (Option.some.inj hheld).symm.trans (Option.some.inj hd)
    · rw [AList.lookup_insert_ne heq] at hheld
      exact hold n hn' held hheld
  · exact fun n hn => hold n (mem_queued_finished hcurrent
      { p.markArchived op.name with current := none } rfl rfl hn)
  · exact fun n hn => by cases hn

end Agree

theorem Agrees.step (hp : s.Agrees) (h : s.Sound) (hkeeps : s.KeepsNames a)
    (hstep : s.step a = some s') : s'.Agrees := by
  cases hstatus : s.status with
  | down d =>
    obtain ⟨-, hqueued⟩ := queued_started h hstatus hstep
    exact fun n hn => noOther_of_not_mem (hqueued n hn).2 _
  | up p =>
    obtain ⟨l, b, hrunning, hsafe, -⟩ := h.up hstatus
    rw [KeepsNames, touch_up hstatus, queued_up hstatus, dir_up hstatus] at hkeeps
    rcases step_up hstatus hstep with ⟨p', hmove, rfl⟩ | ⟨rfl, hcarry⟩ | ⟨rfl, rfl⟩ |
      ⟨cut, d, rfl, -, rfl⟩
    · rw [Agrees, queued_up hstatus, dir_up hstatus] at hp
      obtain ⟨l', b', -, hmoves⟩ := hrunning.move hmove
      exact agree_move hrunning hsafe hp hmoves hkeeps
    · exact agree_carryOut hstatus hp hcarry
    · exact fun n hn => by cases hn
    · exact fun n hn => by cases hn

/-! ## The sections of an upload -/

/-- The upload being carried out. -/
def upload (s : LogSystem) : Option (Process × FileName) :=
  match s.status with
  | .down _ => none
  | .up p => (p.current.filter fun op => !op.remove).map fun op => (p, op.name)

variable {n : FileName}

theorem upload_eq_some : s.upload = some (p, n) ↔ s.status = .up p ∧ p.current = some { name := n } := by
  unfold upload
  split
  · next hdown => simp [hdown]
  · next q hup =>
    rw [hup]
    cases hcurrent : q.current with
    | none => grind
    | some op =>
      obtain ⟨name, remove⟩ := op
      cases remove <;> grind

theorem queued_upload (h : s.upload = some (p, n)) : n ∈ p.queued := by
  obtain ⟨-, hcurrent⟩ := upload_eq_some.mp h
  refine mem_queued.mpr ⟨{ name := n }, ?_, rfl, rfl⟩
  rw [pending_of_current hcurrent]
  exact List.mem_cons_self

/-- The archiver alone finishes an operation. -/
theorem move_current {op : ArchiverOp} (hmove : p.move a = some p') (h : p.current = some op) :
    p'.current = some op := by
  cases a with
  | commit position batch =>
    rcases commit_cases hmove with ⟨rfl, -⟩ | ⟨-, -, -, rfl | rfl⟩ <;> exact h
  | tick => grind [Process.move, Process.tick]
  | load revision => grind [Process.move, Process.load]
  | compact through => grind [Process.move, Process.compact]
  | compactStep live => grind [Process.move, Process.compactStep]
  | take => grind [Process.move, Process.take]
  | close => grind [Process.move, Process.close]
  | start | failStart | carryOut | exit | crash => cases hmove

/-- The keys above `key` are live. -/
def liveAbove (key : UInt8) : FilesystemLog.LiveFunc := fun k _ => decide ([key] < k)

/-- Two files are merged, and the archive receives the new file. -/
def mergedAndArchived : List Action :=
  twoFiles ++ archiveOne ++ archiveOne ++ mergeTwo ++ List.replicate 7 (.compactStep allLive) ++
    archiveOne ++ archiveOne ++ archiveOne

end LogSystem

open LogSystem

/-- The log system with the bytes that the upload at hand has read: `Upload` reads the file first, and other
steps may come before it creates the object. -/
structure UploadSystem where
  sys : LogSystem
  read : Option Bytes := none

namespace UploadSystem

variable {s s' : UploadSystem}

/-- What can happen next: an upload has the sections `read` and `create` and may fail in between. -/
inductive Action where
  | act (a : LogSystem.Action)
  | read
  | create
  | retry

/-- One step.  What was read is lost with the process. -/
def step (s : UploadSystem) : Action → Option UploadSystem
  | .act a =>
    match s.sys.upload, a with
    | some _, .carryOut => none
    | _, a => (s.sys.step a).map fun sys => ⟨sys, sys.upload.bind fun _ => s.read⟩
  | .read => s.sys.upload.bind fun x => (x.1.log.dir.lookup x.2).map fun data => { s with read := some data }
  | .create =>
    match s.sys.upload, s.read with
    | some (p, n), some data => some ⟨s.sys.createObject p n data, none⟩
    | _, _ => none
  | .retry => some { s with read := none }

/-- A log with an archive, both empty. -/
def init : UploadSystem := ⟨LogSystem.init true, none⟩

/-- `Upload` would report a conflict now. -/
def Conflict (s : UploadSystem) : Prop :=
  ∃ data ∈ s.read, ∃ x ∈ s.sys.upload, ∃ held ∈ s.sys.archive.lookup x.2, held ≠ data

instance decidableConflict (s : UploadSystem) : Decidable s.Conflict :=
  inferInstanceAs (Decidable (∃ data ∈ s.read, ∃ x ∈ s.sys.upload,
    ∃ held ∈ s.sys.archive.lookup x.2, held ≠ data))

/-- The condition on a step: it keeps the names apart, and a compaction leaves the file as it is that the
upload at hand has read. -/
def LeavesUpload (s : UploadSystem) : Action → Prop
  | .act a => s.sys.KeepsNames a ∧ ∀ data ∈ s.read, ∀ x ∈ s.sys.upload,
      after x.2 (some data) (s.sys.touch a) = some data
  | _ => True

instance decidableLeavesUpload (s : UploadSystem) : ∀ a, Decidable (s.LeavesUpload a)
  | .act a => inferInstanceAs (Decidable (s.sys.KeepsNames a ∧ ∀ data ∈ s.read, ∀ x ∈ s.sys.upload,
      after x.2 (some data) (s.sys.touch a) = some data))
  | .read | .create | .retry => isTrue trivial

/-- What was read is what the file has. -/
structure Steady (s : UploadSystem) : Prop where
  sound : s.sys.Sound
  agrees : s.sys.Agrees
  read : ∀ data ∈ s.read, ∃ p n, s.sys.upload = some (p, n) ∧ p.log.dir.lookup n = some data

theorem Steady.not_conflict (h : s.Steady) : ¬ s.Conflict := by
  rintro ⟨data, hread, x, hx, held, hheld, hne⟩
  obtain ⟨p, n, hupload, hdata⟩ := h.read data hread
  obtain rfl : (p, n) = x := Option.some.inj (hupload.symm.trans hx)
  have hup := (upload_eq_some.mp hupload).1
  refine hne (h.agrees n ?_ held hheld data ?_)
  · rw [queued_up hup]
    exact queued_upload hupload
  · rw [dir_up hup]
    exact hdata

/-- A step of the log system keeps the file that the upload at hand has read. -/
theorem Steady.act {a : LogSystem.Action} (h : s.Steady) (hleaves : s.LeavesUpload (.act a))
    (hstep : s.step (.act a) = some s') : s'.Steady := by
  obtain ⟨sys, hsys, rfl⟩ : ∃ sys, s.sys.step a = some sys ∧ ⟨sys, sys.upload.bind fun _ => s.read⟩ = s' := by
    simp only [step] at hstep
    split at hstep
    · cases hstep
    · exact Option.map_eq_some_iff.mp hstep
  refine ⟨h.sound.step hsys, h.agrees.step h.sound hleaves.1 hsys, fun data hdata => ?_⟩
  obtain ⟨⟨p', n'⟩, hupload', hread⟩ := Option.bind_eq_some_iff.mp hdata
  refine ⟨p', n', hupload', ?_⟩
  obtain ⟨p, n, hupload, hlookup⟩ := h.read data hread
  obtain ⟨hup, hcurrent⟩ := upload_eq_some.mp hupload
  obtain ⟨hup', hcurrent'⟩ := upload_eq_some.mp hupload'
  obtain ⟨l, b, hrunning, hsafe, -⟩ := h.sound.up hup
  rcases step_up hup hsys with ⟨q, hmove, rfl⟩ | ⟨rfl, -⟩ | ⟨-, rfl⟩ | ⟨cut, d, -, -, rfl⟩
  · cases hup'
    rw [move_current hmove hcurrent] at hcurrent'
    cases hcurrent'
    obtain ⟨l', b', -, hmoves⟩ := hrunning.move hmove
    refine (lookup_move hrunning hsafe (queued_upload hupload) hmoves ?_).trans hlookup
    rw [hlookup, ← touch_up hup]
    exact hleaves.2 data hread _ hupload
  · simp only [step] at hstep
    rw [hupload] at hstep
    cases hstep
  · cases hup'
  · cases hup'

/-- The object is created with what the file has, as in an upload that nothing comes between. -/
theorem Steady.create (h : s.Steady) (hstep : s.step .create = some s') : s'.Steady := by
  simp only [step] at hstep
  split at hstep
  · next p n data hupload hread =>
    cases hstep
    obtain ⟨q, m, hupload', hlookup⟩ := h.read data hread
    rw [hupload] at hupload'
    cases hupload'
    obtain ⟨hup, hcurrent⟩ := upload_eq_some.mp hupload
    have hcarry : s.sys.step .carryOut = some (s.sys.createObject p n data) := by
      simp [LogSystem.step, hup, carryOut, hcurrent, hlookup]
    exact ⟨h.sound.step hcarry, h.agrees.step h.sound (by rw [KeepsNames, touch_up hup]; trivial) hcarry, nofun⟩
  · cases hstep

theorem Steady.step {a : Action} (h : s.Steady) (hleaves : s.LeavesUpload a) (hstep : s.step a = some s') :
    s'.Steady := by
  cases a with
  | act a => exact h.act hleaves hstep
  | create => exact h.create hstep
  | retry =>
    cases hstep
    exact ⟨h.sound, h.agrees, nofun⟩
  | read =>
    obtain ⟨⟨p, n⟩, hupload, hstep⟩ := Option.bind_eq_some_iff.mp hstep
    obtain ⟨data, hlookup, rfl⟩ := Option.map_eq_some_iff.mp hstep
    exact ⟨h.sound, h.agrees, fun _ hdata => ⟨p, n, hupload, by rw [hlookup]; exact hdata⟩⟩

/-- In every state of a run in which no compaction rewrites a file whose upload is queued, or queues the upload
of a file, under a name that the archive has with another content, and none changes or removes the file that
the upload at hand has read, `Upload` does not report a conflict. -/
theorem uploads_agree {as : List Action} (heach : Transition.Each step LeavesUpload init as) :
    Transition.Always step (fun s => ¬ s.Conflict) init as := by
  intro before t hpre ht
  have hsteady : t.Steady := Transition.run_invariant_each (K := Steady)
    (fun _ _ _ h hleaves hstep => h.step hleaves hstep) ht (heach.mono hpre)
    ⟨sound_init true, nofun, nofun⟩
  exact hsteady.not_conflict

/-- Steps of the log system. -/
def acts (as : List LogSystem.Action) : List Action := as.map .act

/-- An upload. -/
def uploadOne : List Action := [.act .take, .read, .create]

/-- Two files are uploaded and merged; the new file is uploaded and the two are removed from the archive. -/
def mergedAndUploaded : List Action :=
  acts twoFiles ++ uploadOne ++ uploadOne ++ acts (mergeTwo ++ List.replicate 7 (.compactStep allLive)) ++
    uploadOne ++ acts (archiveOne ++ archiveOne)

/-- The new file is compacted alone, which gives it other content under the same name. -/
def rewriteAlone : List Action :=
  acts (.compact 2 :: List.replicate 5 (.compactStep (liveAbove 97)))

/-- A merge whose new file is uploaded. -/
theorem uploads_agree_merged : (Transition.run step init mergedAndUploaded).isSome = true ∧
    Transition.Always step (fun s => ¬ s.Conflict) init mergedAndUploaded :=
  ⟨by decide +kernel, uploads_agree (by decide +kernel)⟩

/-- Compaction rewrites an archived file under its own name, and the upload meets the older content. -/
theorem upload_conflicts : ∃ s, Transition.run step init
    (mergedAndUploaded ++ rewriteAlone ++ [.act .take, .read]) = some s ∧ s.Conflict := by
  decide +kernel

-- So does the upload of a file that is rewritten while an upload of it is in flight.
example : ∃ s, Transition.run step init
    (acts twoFiles ++ uploadOne ++ uploadOne ++
      acts (mergeTwo ++ List.replicate 7 (.compactStep allLive)) ++ [.act .take, .read] ++ rewriteAlone ++
      [.create] ++ acts (archiveOne ++ archiveOne) ++ [.act .take, .read]) = some s ∧ s.Conflict := by
  decide +kernel

end UploadSystem

end CloudEtcd
