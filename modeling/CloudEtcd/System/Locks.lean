/-
# CloudEtcd.System.Locks — the locks of the storage and of the log, and who waits for whom.

Each operation is the sequence of acquisitions and releases it makes (`Operation.program`) of the
storage's `mu` and `watcherMu` and the log's `writeMu`, `mu` and `compactMu`, with its sends to the
bounded queue of the archiver.  The archiver is one goroutine, thread 0, which takes one operation after
another from the queue.

All operations but two take the locks in one order.  `Watch` reads the head, under the log's `mu`, while it
has `watcherMu`; `commitBatch` tells the watchers, under `watcherMu`, while it has the log's `mu`.  And a
rotation sends to the queue while it has the log's `mu`, which the archiver needs before it takes the next
operation from the queue.  These are the only circular waits (`circularWait_iff`), and a run has none
exactly if its steps keep such operations apart (`no_circular_wait_iff`).
-/
import CloudEtcd.Lib.RWLocks
import CloudEtcd.Lib.Transition

namespace CloudEtcd

open Transition
open List (append_assoc mem_singleton mem_of_getElem? getElem?_of_mem mem_of_mem_eraseIdx)

open RWLocks

/-! ## Operations -/

/-- The locks: `MemoryStorage.mu` and `watcherMu`, and of the log `compactMu`, `writeMu` and `mu`. -/
inductive Lock where
  | compactMu
  | mu
  | writeMu
  | watcherMu
  | logMu
  deriving DecidableEq, Repr

/-- `archiveOp` without the name of the file. -/
structure ArchiveOp where
  remove : Bool
  deriving DecidableEq, Repr

/-- What operations do beside taking locks: `archiver.add`, and `Archive.Upload` or `Archive.Delete`. -/
inductive Effect where
  | add (op : ArchiveOp)
  | transfer
  deriving DecidableEq, Repr

abbrev Program := List (Instr Lock Effect)

namespace Program

/-- `GetCurrentRevision` of the log. -/
def getCurrentRevision : Program := [.lock .logMu .read, .unlock .logMu .read]

/-- `recordBytes`, for each `GetLogEntry` that misses the cache. -/
def recordBytes (misses : Nat) : Program :=
  (List.replicate misses [.lock .logMu .read, .unlock .logMu .read]).flatten

/-- `OnLogEntry`. -/
def onLogEntry : Program := [.lock .watcherMu .read, .unlock .watcherMu .read]

/-- `rotateLocked`, as far as it gets to the archiver. -/
def rotateLocked (archived : Bool) : Program :=
  if archived then [.other (.add ⟨false⟩)] else []

/-- `commitBatch`.  A batch that is not contiguous or not written is not published. -/
def commitBatch (written archived : Bool) : Program :=
  [.lock .writeMu .write] ++
    (if written then
      [.lock .logMu .write] ++ onLogEntry ++ rotateLocked archived ++ [.unlock .logMu .write]
    else []) ++
    [.unlock .writeMu .write]

/-- `tick`. -/
def tick (archived : Bool) : Program :=
  [.lock .writeMu .write, .lock .logMu .write] ++ rotateLocked archived ++
    [.unlock .logMu .write, .unlock .writeMu .write]

/-- `archive`. -/
def archive (op : ArchiveOp) : Program :=
  [.other .transfer] ++ if op.remove then [] else [.lock .logMu .write, .unlock .logMu .write]

/-- `MemoryStorage.Watch`; it returns early if the start revision is compacted, or the watch ID zero. -/
def watch (compacted zeroID : Bool) : Program :=
  [.lock .mu .read, .unlock .mu .read] ++
    if compacted then []
    else [.lock .watcherMu .write] ++ (if zeroID then [] else getCurrentRevision) ++
      [.unlock .watcherMu .write]

/-- `MemoryStorage.Compact`. -/
def compact : Program :=
  [.lock .mu .write, .lock .watcherMu .read, .unlock .watcherMu .read, .unlock .mu .write]

/-- `evaluate`. -/
def evaluate (misses : Nat) : Program :=
  [.lock .mu .read] ++ recordBytes misses ++ [.unlock .mu .read]

/-- `applyUpTo`; it returns early if the index is not behind. -/
def applyUpTo (behind : Bool) (misses : Nat) : Program :=
  [.lock .mu .read, .unlock .mu .read] ++
    if behind then [.lock .mu .write] ++ recordBytes misses ++ [.unlock .mu .write] else []

/-- The calls of `live` that a compaction of the log makes. -/
def live (calls : Nat) : Program :=
  (List.replicate calls [.lock .mu .read, .unlock .mu .read]).flatten

/-- `compactGroup`, with the calls of `live` and, with an archive, the files it removes there. -/
def compactGroup (calls : Nat) (removed : Option Nat) : Program :=
  live calls ++ [.lock .logMu .write, .unlock .logMu .write] ++
    removed.elim [] fun n => .other (.add ⟨false⟩) :: List.replicate n (.other (.add ⟨true⟩))

/-- `FilesystemLog.Compact`: the files are measured, then the groups rewritten.  An error ends it in the
measuring or in the rewriting of a further group. -/
def compactLog (calls : Nat) (groups : List (Nat × Option Nat)) (failed : Nat) : Program :=
  [.lock .compactMu .write, .lock .logMu .read, .unlock .logMu .read] ++ live calls ++
    (groups.flatMap fun g => compactGroup g.1 g.2) ++ live failed ++ [.unlock .compactMu .write]

end Program

/-- The operations, each with what decides its course. -/
inductive Operation where
  | watch (compacted zeroID : Bool)
  | commitBatch (written archived : Bool)
  | tick (archived : Bool)
  | compact
  | evaluate (misses : Nat)
  | applyUpTo (behind : Bool) (misses : Nat)
  | getCurrentRevision
  | compactLog (calls : Nat) (groups : List (Nat × Option Nat)) (failed : Nat)

def Operation.program : Operation → Program
  | .watch compacted zeroID => Program.watch compacted zeroID
  | .commitBatch written archived => Program.commitBatch written archived
  | .tick archived => Program.tick archived
  | .compact => Program.compact
  | .evaluate misses => Program.evaluate misses
  | .applyUpTo behind misses => Program.applyUpTo behind misses
  | .getCurrentRevision => Program.getCurrentRevision
  | .compactLog calls groups failed => Program.compactLog calls groups failed

/-- The capacity that `newWorker` is given. -/
def archiverCapacity : Nat := 4096

abbrev Goroutine := Thread Lock Effect

variable {a : Goroutine}

/-- The goroutine is at `archiver.add`. -/
def Adds (a : Goroutine) : Prop :=
  match a.next with
  | some (.other (.add _)) => True
  | _ => False

instance (a : Goroutine) : Decidable (Adds a) := by
  unfold Adds
  split <;> infer_instance

theorem adds_iff : Adds a ↔ ∃ op, a.next = some (.other (.add op)) := by
  unfold Adds
  split
  · next op hnext => exact iff_of_true trivial ⟨op, hnext⟩
  · next hnext => exact iff_of_false id fun ⟨op, hop⟩ => hnext op hop

/-- The operations under way, the archiver first, and the queue of the archiver. -/
structure LockState where
  threads : List Goroutine
  queue : List ArchiveOp
  deriving DecidableEq

namespace LockState

/-- The archiver is started, with what opening the log has put into its queue. -/
def start (queue : List ArchiveOp) : LockState := ⟨[Thread.start []], queue⟩

inductive Action where
  /-- An operation begins. -/
  | call (op : Operation)
  /-- The archiver takes an operation from the queue. -/
  | take
  /-- The next instruction of a goroutine. -/
  | move (t : Nat)

def take (s : LockState) : Option LockState :=
  match s.threads[0]?, s.queue with
  | some a, op :: queue =>
    if a.rest = [] then some ⟨s.threads.set 0 (Thread.start (Program.archive op)), queue⟩
    else none
  | _, _ => none

def move (s : LockState) (t : Nat) : Option LockState :=
  s.threads[t]?.bind fun a =>
    match a.next with
    | some (.other (.add op)) =>
      if s.queue.length < archiverCapacity then
        some ⟨s.threads.set t a.pass, s.queue ++ [op]⟩
      else none
    | some (.other .transfer) => some { s with threads := s.threads.set t a.pass }
    | _ => (RWLocks.move s.threads t).map fun ts => { s with threads := ts }

def step (s : LockState) : Action → Option LockState
  | .call op => some { s with threads := s.threads ++ [Thread.start op.program] }
  | .take => s.take
  | .move t => s.move t

/-- The operation `t` is blocked on something that `u` has to give up: a lock, or a place in the full queue
while the archiver is busy. -/
def WaitsFor (s : LockState) (t u : Nat) : Prop :=
  ∃ a ∈ s.threads[t]?, ∃ b ∈ s.threads[u]?,
    a.WaitsOn b ∨ Adds a ∧ archiverCapacity ≤ s.queue.length ∧ u = 0 ∧ b.rest ≠ []

instance (s : LockState) (t u : Nat) : Decidable (s.WaitsFor t u) :=
  inferInstanceAs (Decidable (∃ a ∈ s.threads[t]?, ∃ b ∈ s.threads[u]?, _))

/-- Operations each of which is blocked on something that only another one of them can give up. -/
def CircularWait (s : LockState) : Prop := Circular s.WaitsFor

end LockState

/-! ## The order of the locks -/

/-- With this held an operation may go on to take a lock after it has released one. -/
def Loose (held : List (Lock × Mode)) : Prop :=
  held = [] ∨ (∃ m, held = [(.mu, m)]) ∨ held = [(.compactMu, .write)]

/-- What the operations hold when they take a lock, and which lock they take right after. -/
def allowed (held : List (Lock × Mode)) (i : Instr Lock Effect) (rest : Program) : Prop :=
  match i with
  | .lock .compactMu _ => held = []
  | .lock .mu _ => held = [] ∨ held = [(.compactMu, .write)]
  | .lock .writeMu _ => held = []
  | .lock .watcherMu .read =>
    held = [(.mu, .write)] ∨ held = [(.logMu, .write), (.writeMu, .write)]
  | .lock .watcherMu .write => held = []
  | .lock .logMu .read => Loose held ∨ held = [(.watcherMu, .write)]
  | .lock .logMu .write => held = [] ∨ held = [(.compactMu, .write)] ∨ held = [(.writeMu, .write)]
  | .unlock l m => ∃ held', held = (l, m) :: held' ∧
      ∀ k n, rest.head? = some (.lock k n) → Loose held'
  | .other (.add _) =>
    (held = [(.compactMu, .write)] ∨ held = [(.logMu, .write), (.writeMu, .write)] ∧
      ∀ op, rest.head? ≠ some (.other (.add op))) ∧
    ∀ k n, rest.head? = some (.lock k n) → Loose held
  | .other .transfer => held = []

theorem loose_compactMu : Loose [(.compactMu, .write)] := .inr (.inr rfl)

section Programs

variable {held : List (Lock × Mode)} {rest : Program}

/-- A program may end by giving back the lock it took last. -/
theorem follows_unlock (l : Lock) (m : Mode) : Follows allowed ((l, m) :: held) [.unlock l m] := by
  refine ⟨⟨held, rfl, fun k n hlock => ?_⟩, trivial⟩
  cases hlock

theorem follows_recordBytes (hheld : Loose held) (misses : Nat) (hrest : Follows allowed held rest) :
    Follows allowed held (Program.recordBytes misses ++ rest) := by
  induction misses with
  | zero => exact hrest
  | succ n ih =>
    have herase : ((Lock.logMu, Mode.read) :: held).erase (.logMu, .read) = held :=
      List.erase_cons_head _ _
    refine ⟨.inl hheld, ⟨held, rfl, fun _ _ _ => hheld⟩, ?_⟩
    rw [Instr.after, Instr.after, herase]
    exact ih

theorem follows_live (calls : Nat) (hrest : Follows allowed [(.compactMu, .write)] rest) :
    Follows allowed [(.compactMu, .write)] (Program.live calls ++ rest) := by
  induction calls with
  | zero => exact hrest
  | succ n ih => exact ⟨.inr rfl, ⟨_, rfl, fun _ _ _ => loose_compactMu⟩, ih⟩

theorem follows_removals (n : Nat) (hrest : Follows allowed [(.compactMu, .write)] rest) :
    Follows allowed [(.compactMu, .write)]
      (List.replicate n (.other (.add ⟨true⟩)) ++ rest) := by
  induction n with
  | zero => exact hrest
  | succ n ih => exact ⟨⟨.inl rfl, fun _ _ _ => loose_compactMu⟩, ih⟩

theorem follows_compactGroup (calls : Nat) (removed : Option Nat)
    (hrest : Follows allowed [(.compactMu, .write)] rest) :
    Follows allowed [(.compactMu, .write)] (Program.compactGroup calls removed ++ rest) := by
  have hadds : Follows allowed [(.compactMu, .write)] ((removed.elim [] fun n =>
      .other (.add ⟨false⟩) :: List.replicate n (.other (.add ⟨true⟩))) ++ rest) := by
    cases removed with
    | none => exact hrest
    | some n =>
      exact ⟨⟨.inl rfl, fun _ _ _ => loose_compactMu⟩, follows_removals n hrest⟩
  rw [Program.compactGroup, append_assoc, append_assoc]
  refine follows_live calls ⟨.inr (.inl rfl), ⟨_, rfl, fun _ _ _ => loose_compactMu⟩, ?_⟩
  exact hadds

theorem follows_compactGroups (groups : List (Nat × Option Nat))
    (hrest : Follows allowed [(.compactMu, .write)] rest) :
    Follows allowed [(.compactMu, .write)]
      ((groups.flatMap fun g => Program.compactGroup g.1 g.2) ++ rest) := by
  induction groups with
  | nil => exact hrest
  | cons g groups ih =>
    rw [List.flatMap_cons, append_assoc]
    exact follows_compactGroup g.1 g.2 ih

theorem follows_archive (op : ArchiveOp) : Follows allowed [] (Program.archive op) := by
  obtain ⟨remove⟩ := op
  cases remove <;> simp [Program.archive, Follows, allowed, Instr.after]

end Programs

/-- Every operation takes the locks as `allowed` says. -/
theorem Operation.follows (op : Operation) : Follows allowed [] op.program := by
  cases op with
  | watch compacted zeroID =>
    cases compacted <;> cases zeroID <;>
      simp [program, Program.watch, Program.getCurrentRevision, Follows, allowed, Instr.after,
        Loose]
  | commitBatch written archived =>
    cases written <;> cases archived <;>
      simp [program, Program.commitBatch, Program.onLogEntry, Program.rotateLocked, Follows,
        allowed, Instr.after]
  | tick archived =>
    cases archived <;>
      simp [program, Program.tick, Program.rotateLocked, Follows, allowed, Instr.after]
  | compact => simp [program, Program.compact, Follows, allowed, Instr.after]
  | evaluate misses =>
    have hmu : Loose [(.mu, .read)] := .inr (.inl ⟨_, rfl⟩)
    exact ⟨.inl rfl, follows_recordBytes hmu misses (follows_unlock .mu .read)⟩
  | applyUpTo behind misses =>
    have hmu : Loose [(.mu, .write)] := .inr (.inl ⟨_, rfl⟩)
    refine ⟨.inl rfl, ⟨_, rfl, fun _ _ _ => .inl rfl⟩, ?_⟩
    cases behind with
    | false => trivial
    | true =>
      exact ⟨.inl rfl, follows_recordBytes hmu misses (follows_unlock .mu .write)⟩
  | getCurrentRevision =>
    simp [program, Program.getCurrentRevision, Follows, allowed, Instr.after, Loose]
  | compactLog calls groups failed =>
    rw [program, Program.compactLog, append_assoc, append_assoc, append_assoc]
    refine ⟨rfl, .inl loose_compactMu, ⟨_, rfl, fun _ _ _ => loose_compactMu⟩, ?_⟩
    refine follows_live calls (follows_compactGroups groups (follows_live failed ?_))
    exact follows_unlock .compactMu .write

/-! ## What holds in every state -/

namespace LockState

variable {s s' : LockState}
variable {t : Nat}

structure Inv (s : LockState) : Prop where
  excl : Excl s.threads
  follows : ∀ a ∈ s.threads, Follows allowed a.held a.rest
  archiver : ∃ a, s.threads[0]? = some a ∧ ∀ i ∈ a.rest, i ∈ Program.archive ⟨false⟩

theorem Inv.start (queue : List ArchiveOp) : (start queue).Inv where
  excl := by
    refine ⟨fun l i j a b hi _ ha _ => ?_, fun l a ha b _ hw _ => ?_⟩
    · obtain rfl := mem_singleton.mp (mem_of_getElem? hi)
      exact absurd ha (Thread.not_writes_start [] l)
    · obtain rfl := mem_singleton.mp ha
      cases hw
  follows a ha := by
    obtain rfl := mem_singleton.mp ha
    trivial
  archiver := ⟨_, rfl, nofun⟩

/-- A move changes one goroutine: it announces itself, or passes its next instruction.  A send takes a
place in the queue. -/
theorem move_spec (hmove : s.move t = some s') :
    ∃ a a', s.threads[t]? = some a ∧ s'.threads = s.threads.set t a' ∧
      ((∃ l, a.next = some (.lock l .write) ∧ a.announced = false ∧
          a' = { a with announced := true }) ∨
        (∀ l, a.next = some (.lock l .write) → a.announced = true) ∧ a' = a.pass) ∧
      s'.queue.length = s.queue.length + if Adds a then 1 else 0 := by
  obtain ⟨a, ha, hm⟩ := Option.bind_eq_some_iff.mp hmove
  split at hm
  · next op hnext =>
    split at hm
    · cases hm
      refine ⟨a, _, ha, rfl, .inr ⟨fun l hl => by simp [hnext] at hl, rfl⟩, ?_⟩
      rw [if_pos (adds_iff.mpr ⟨op, hnext⟩), List.length_append, List.length_singleton]
    · cases hm
  · next hnext =>
    cases hm
    refine ⟨a, _, ha, rfl, .inr ⟨fun l hl => by simp [hnext] at hl, rfl⟩, ?_⟩
    rw [if_neg fun hadds => ?_, Nat.add_zero]
    obtain ⟨op, hop⟩ := adds_iff.mp hadds
    cases hnext.symm.trans hop
  · next hadd _ =>
    obtain ⟨ts, hts, rfl⟩ := Option.map_eq_some_iff.mp hm
    obtain ⟨b, b', hb, rfl, -, hcases⟩ := move_eq_some hts
    obtain rfl := Option.some.inj (ha.symm.trans hb)
    refine ⟨a, b', ha, rfl, hcases, ?_⟩
    rw [if_neg fun hadds => ?_, Nat.add_zero]
    obtain ⟨op, hop⟩ := adds_iff.mp hadds
    exact hadd op hop

theorem Inv.excl_move (h : s.Inv) (hmove : s.move t = some s') : Excl s'.threads := by
  obtain ⟨a, ha, hm⟩ := Option.bind_eq_some_iff.mp hmove
  have hother : ∀ e, a.next = some (.other e) → Excl (s.threads.set t a.pass) := by
    intro e hnext
    obtain ⟨rest, hrest⟩ := List.head?_eq_some_iff.mp hnext
    refine h.excl.pass ha fun x hx => ?_
    simpa [Thread.pass, hrest, Instr.after] using hx
  split at hm
  · next op hnext =>
    split at hm
    · cases hm
      exact hother _ hnext
    · cases hm
  · next hnext =>
    cases hm
    exact hother _ hnext
  · obtain ⟨ts, hts, rfl⟩ := Option.map_eq_some_iff.mp hm
    exact h.excl.move hts

theorem Inv.move (h : s.Inv) (hmove : s.move t = some s') : s'.Inv := by
  obtain ⟨a, a', ha, hts, hcases, -⟩ := move_spec hmove
  have hmem := mem_of_getElem? ha
  obtain rfl := Thread.eq_moved hcases
  refine ⟨h.excl_move hmove, fun b hb => ?_, ?_⟩
  · rw [hts] at hb
    rcases List.mem_or_eq_of_mem_set hb with hb' | rfl
    · exact h.follows b hb'
    · exact (h.follows a hmem).moved
  · obtain ⟨ar, har, hrest⟩ := h.archiver
    rw [hts]
    by_cases ht : t = 0
    · subst ht
      obtain rfl := Option.some.inj (ha.symm.trans har)
      exact ⟨a.moved, List.getElem?_set_self (List.getElem?_eq_some_iff.mp ha).1,
        fun i hi => hrest i (a.moved_rest_subset i hi)⟩
    · exact ⟨ar, (List.getElem?_set_ne ht).trans har, hrest⟩

theorem Inv.step (s : LockState) (act : Action) (s' : LockState) (h : s.Inv)
    (hstep : s.step act = some s') : s'.Inv := by
  obtain ⟨ar, har, hrest⟩ := h.archiver
  cases act with
  | move t => exact h.move hstep
  | call op =>
    cases hstep
    refine ⟨h.excl.append _, fun a ha => ?_, ar, ?_, hrest⟩
    · rcases List.mem_append.mp ha with ha | ha
      · exact h.follows a ha
      · obtain rfl := mem_singleton.mp ha
        exact op.follows
    · exact (List.getElem?_append_left (List.getElem?_eq_some_iff.mp har).1).trans har
  | take =>
    simp only [LockState.step, take, har] at hstep
    split at hstep
    · next op queue a hsome hqueue =>
      split at hstep
      · cases hstep
        refine ⟨h.excl.restart har _, fun b hb => ?_, _,
          List.getElem?_set_self (List.getElem?_eq_some_iff.mp har).1, fun i hi => ?_⟩
        · rcases List.mem_or_eq_of_mem_set hb with hb' | rfl
          · exact h.follows b hb'
          · exact follows_archive _
        · simp only [Thread.start, Program.archive] at hi ⊢
          split at hi <;> simp_all
      · cases hstep
    · cases hstep

end LockState

/-! ## Circular waits -/

/-- `Watch` has `watcherMu` and is about to read the head. -/
def ReadsHead (a : Goroutine) : Prop :=
  (.watcherMu, .write) ∈ a.held ∧ a.next = some (.lock .logMu .read)

/-- `commitBatch` has the log's `mu` and is about to tell the watchers. -/
def Notifies (a : Goroutine) : Prop :=
  (.logMu, .write) ∈ a.held ∧ a.next = some (.lock .watcherMu .read)

/-- A rotation has the log's `mu` and is at its send to the archiver. -/
def Rotates (a : Goroutine) : Prop := (.logMu, .write) ∈ a.held ∧ Adds a

/-- The archiver is about to take the log's `mu`. -/
def Archives (a : Goroutine) : Prop := a.next = some (.lock .logMu .write)

instance (a : Goroutine) : Decidable (ReadsHead a) := inferInstanceAs (Decidable (_ ∧ _))
instance (a : Goroutine) : Decidable (Notifies a) := inferInstanceAs (Decidable (_ ∧ _))
instance (a : Goroutine) : Decidable (Rotates a) := inferInstanceAs (Decidable (_ ∧ _))
instance (a : Goroutine) : Decidable (Archives a) := inferInstanceAs (Decidable (_ = _))

/-- The order of the locks.  Whether `watcherMu` comes before the log's `mu` depends on whether a `Watch`
is about to read the head. -/
def lockRank (watching : Bool) : Lock → Nat
  | .compactMu => 0
  | .mu | .writeMu => 4
  | .watcherMu => if watching then 6 else 8
  | .logMu => if watching then 8 else 6

/-- The rank of what a goroutine waits for; a writer that has announced itself is before the others. -/
def waitRank (watching : Bool) (a : Goroutine) : Nat :=
  match a.next with
  | some (.lock l .read) => lockRank watching l
  | some (.lock l .write) => lockRank watching l + if a.announced then 1 else 0
  | some (.other (.add _)) => if (.logMu, .write) ∈ a.held then 10 else 2
  | _ => 0

theorem waitRank_le (watching : Bool) (a : Goroutine) : waitRank watching a ≤ 10 := by
  have hlock : ∀ l, lockRank watching l ≤ 8 := fun l => by
    cases watching <;> cases l <;> decide
  unfold waitRank
  split
  · next l _ => exact (hlock l).trans (by decide)
  · next l _ =>
    have := hlock l
    split <;> omega
  · split <;> omega
  · omega

theorem waitRank_lock {l : Lock} {m : Mode} (h : a.next = some (.lock l m)) (watching : Bool) :
    waitRank watching a ≤ lockRank watching l + 1 ∧
      lockRank watching l ≤ waitRank watching a := by
  unfold waitRank
  rw [h]
  cases m with
  | read => exact ⟨Nat.le_succ _, le_rfl⟩
  | write =>
    dsimp only
    split <;> omega

/-- Who has a lock and waits for another one waits for one further up. -/
theorem lockRank_lt_waitRank (hfollows : Follows allowed a.held a.rest) {watching : Bool}
    (hreads : ReadsHead a → watching = true) (hnotifies : Notifies a → watching = false)
    (hblocked : (∃ k n, a.next = some (.lock k n)) ∨ Adds a) {l : Lock} {m : Mode}
    (hl : (l, m) ∈ a.held) : lockRank watching l + 1 < waitRank watching a := by
  have hone : ∀ {k : Lock} {n : Mode}, a.held = [(k, n)] → l = k := fun hheld => by
    rw [hheld, mem_singleton] at hl
    exact congrArg Prod.fst hl
  have hnone : a.held ≠ [] := List.ne_nil_of_mem hl
  rcases hblocked with ⟨k, n, hnext⟩ | hadds
  · obtain ⟨rest, -, hallowed⟩ := hfollows.next hnext
    refine lt_of_lt_of_le ?_ (waitRank_lock hnext watching).2
    -- One case for each lock asked for: `allowed` says what can be held then.  Only `watcherMu` and the
    -- log's `mu` are asked for in both orders.
    cases k with
    | compactMu | writeMu => exact absurd hallowed hnone
    | mu =>
      rcases hallowed with hheld | hheld
      · exact absurd hheld hnone
      · obtain rfl := hone hheld
        cases watching <;> decide
    | watcherMu =>
      cases n with
      | write => exact absurd hallowed hnone
      | read =>
        rcases hallowed with hheld | hheld
        · obtain rfl := hone hheld
          cases watching <;> decide
        · have hfalse : watching = false := hnotifies ⟨by simp [hheld], hnext⟩
          subst hfalse
          rw [hheld] at hl
          rcases List.mem_cons.mp hl with heq | hl
          · cases heq
            decide
          · cases mem_singleton.mp hl
            decide
    | logMu =>
      cases n with
      | write =>
        rcases hallowed with hheld | hheld | hheld
        · exact absurd hheld hnone
        all_goals obtain rfl := hone hheld
        all_goals cases watching <;> decide
      | read =>
        rcases hallowed with (hheld | ⟨n, hheld⟩ | hheld) | hheld
        · exact absurd hheld hnone
        · obtain rfl := hone hheld
          cases watching <;> decide
        · obtain rfl := hone hheld
          cases watching <;> decide
        · have htrue : watching = true := hreads ⟨by simp [hheld], hnext⟩
          obtain rfl := hone hheld
          subst htrue
          decide
  · obtain ⟨op, hnext⟩ := adds_iff.mp hadds
    obtain ⟨rest, -, hallowed⟩ := hfollows.next hnext
    have hrank : waitRank watching a = if (.logMu, .write) ∈ a.held then 10 else 2 := by
      simp only [waitRank, hnext]
    rw [hrank]
    rcases hallowed.1 with hheld | ⟨hheld, -⟩
    · obtain rfl := hone hheld
      simp [hheld, lockRank]
    · have hle : lockRank watching l ≤ 8 := by cases watching <;> cases l <;> decide
      rw [if_pos (by simp [hheld])]
      omega

namespace LockState

/-- A `Watch` that has `watcherMu` and is about to read the head, beside a `commitBatch` that has the log's
`mu` and is about to tell the watchers. -/
def Crosswise (s : LockState) : Prop :=
  (∃ a ∈ s.threads, ReadsHead a) ∧ ∃ b ∈ s.threads, Notifies b

/-- The queue is full, a rotation is at its send, and the archiver is about to take the log's `mu`. -/
def Stalled (s : LockState) : Prop :=
  archiverCapacity ≤ s.queue.length ∧ (∃ a ∈ s.threads[0]?, Archives a) ∧
    ∃ b ∈ s.threads, Rotates b

instance (s : LockState) : Decidable s.Crosswise := inferInstanceAs (Decidable (_ ∧ _))
instance (s : LockState) : Decidable s.Stalled := inferInstanceAs (Decidable (_ ∧ _))

variable {s s' : LockState}

theorem WaitsFor.blocked {t u : Nat} (h : s.WaitsFor t u) :
    ∃ a, s.threads[t]? = some a ∧ ((∃ l m, a.next = some (.lock l m)) ∨ Adds a) := by
  obtain ⟨a, ha, b, -, hw | ⟨hadds, -⟩⟩ := h
  · obtain ⟨l, m, hnext, -⟩ := hw.elim
    exact ⟨a, ha, .inl ⟨l, m, hnext⟩⟩
  · exact ⟨a, ha, .inr hadds⟩

/-- The archiver never sends. -/
theorem Inv.not_adds_archiver (h : s.Inv) {b : Goroutine} (ha : s.threads[0]? = some a)
    (hb : ∀ i ∈ b.rest, i ∈ a.rest) : ¬ Adds b := by
  intro hadds
  obtain ⟨ar, har, hrest⟩ := h.archiver
  obtain rfl := Option.some.inj (ha.symm.trans har)
  obtain ⟨op, hop⟩ := adds_iff.mp hadds
  have hmem := hrest _ (hb _ (List.mem_of_mem_head? hop))
  simp [Program.archive] at hmem

/-- Apart from the two cases there is an order. -/
theorem Inv.not_circularWait (h : s.Inv) (hcross : ¬ s.Crosswise) (hstall : ¬ s.Stalled) :
    ¬ s.CircularWait := by
  set watching : Bool := decide (∃ a ∈ s.threads, ReadsHead a) with hwatching
  refine not_circular_of_rank (fun t => (s.threads[t]?).elim 0 (waitRank watching)) 10
    (fun t => ?_) fun t u v htu huv => ?_
  · cases s.threads[t]? with
    | none => exact Nat.zero_le _
    | some a => exact waitRank_le watching a
  · obtain ⟨b, hb, hblocked⟩ := huv.blocked
    obtain ⟨a, ha, b', hb', hw⟩ := htu
    obtain rfl := Option.some.inj (hb.symm.trans hb')
    rw [ha, hb, Option.elim_some, Option.elim_some]
    have hbmem := mem_of_getElem? hb
    have hfollows := h.follows b hbmem
    have hreads : ReadsHead b → watching = true := fun hr =>
      decide_eq_true ⟨b, hbmem, hr⟩
    have hnotifies : Notifies b → watching = false := fun hn =>
      decide_eq_false fun hr => hcross ⟨hr, b, hbmem, hn⟩
    rcases hw with hw | ⟨hadds, hfull, rfl, -⟩
    · obtain ⟨l, m, hnext, ⟨m', hheld⟩ | ⟨hbehind, hann, hbnext⟩⟩ := hw.elim
      · exact (waitRank_lock hnext watching).1.trans_lt
          (lockRank_lt_waitRank hfollows hreads hnotifies hblocked hheld)
      · -- The writer ahead waits for the same lock.
        have hbrank : waitRank watching b = lockRank watching l + 1 := by
          simp [waitRank, hbnext, hann]
        have harank : waitRank watching a = lockRank watching l := by
          rcases hbehind with rfl | hann'
          · simp [waitRank, hnext]
          · cases m <;> simp [waitRank, hnext, hann']
        omega
    · -- A place in the queue: the archiver is blocked on the log's `mu`.
      obtain ⟨ar, har, hrest⟩ := h.archiver
      obtain rfl := Option.some.inj (hb.symm.trans har)
      have hnext : Archives b := by
        rcases hblocked with ⟨k, n, hk⟩ | hadds
        · have hmem := hrest _ (List.mem_of_mem_head? hk)
          simpa [Program.archive, Archives, hk] using hmem
        · exact absurd hadds (h.not_adds_archiver har fun i hi => hi)
      have hnot : (Lock.logMu, Mode.write) ∉ a.held := fun hheld =>
        hstall ⟨hfull, ⟨b, hb, hnext⟩, a, mem_of_getElem? ha, hheld, hadds⟩
      obtain ⟨op, hop⟩ := adds_iff.mp hadds
      have harank : waitRank watching a = 2 := by
        simp [waitRank, hop, hnot]
      have hlog : 6 ≤ lockRank watching .logMu := by cases watching <;> decide
      have hbrank := (waitRank_lock hnext watching).2
      omega

theorem Crosswise.circularWait (h : s.Crosswise) : s.CircularWait := by
  obtain ⟨⟨a, ha, hwatcher, hlog⟩, b, hb, hlog', hwatcher'⟩ := h
  obtain ⟨t, ht⟩ := getElem?_of_mem ha
  obtain ⟨u, hu⟩ := getElem?_of_mem hb
  refine Circular.of_pair (a := t) (b := u) ⟨a, ht, b, hu, .inl ?_⟩ ⟨b, hu, a, ht, .inl ?_⟩
  · simp only [Thread.WaitsOn, hlog]
    exact .inl hlog'
  · simp only [Thread.WaitsOn, hwatcher']
    exact .inl hwatcher

theorem Inv.stalled_circularWait (h : s.Inv) (hs : s.Stalled) : s.CircularWait := by
  obtain ⟨hfull, ⟨a, ha, harchives⟩, b, hb, hlog, hadds⟩ := hs
  obtain ⟨u, hu⟩ := getElem?_of_mem hb
  have hann : a.announced = false := by
    by_contra hann
    -- Two writers of the log's `mu` would be one goroutine, at two instructions.
    have hwrites : a.Writes .logMu := .inr ⟨by simpa using hann, harchives⟩
    obtain rfl := h.excl.writer .logMu 0 u a b ha hu hwrites (.inl hlog)
    obtain rfl := Option.some.inj (ha.symm.trans hu)
    obtain ⟨op, hop⟩ := adds_iff.mp hadds
    exact absurd (harchives.symm.trans hop) (by simp)
  have hbusy : a.rest ≠ [] := fun hnil => by
    rw [Archives, Thread.next, hnil] at harchives
    cases harchives
  refine Circular.of_pair (a := u) (b := 0) ⟨b, hu, a, ha, .inr ⟨hadds, hfull, rfl, hbusy⟩⟩
    ⟨a, ha, b, hu, .inl ?_⟩
  have harchives' : a.next = some (.lock .logMu .write) := harchives
  simp only [Thread.WaitsOn, harchives', hann]
  exact .inl hlog

/-- The two circular waits. -/
theorem Inv.circularWait_iff (h : s.Inv) : s.CircularWait ↔ s.Crosswise ∨ s.Stalled := by
  constructor
  · intro hc
    by_contra hnot
    obtain ⟨hcross, hstall⟩ := not_or.mp hnot
    exact h.not_circularWait hcross hstall hc
  · rintro (hcross | hstall)
    · exact hcross.circularWait
    · exact h.stalled_circularWait hstall

end LockState

/-! ## Keeping apart -/

/-- `Watch` is granted `watcherMu`, and reads the head next. -/
def TakesWatcherMu (a : Goroutine) : Prop :=
  a.announced = true ∧ a.next = some (.lock .watcherMu .write) ∧
    a.pass.next = some (.lock .logMu .read)

/-- `commitBatch` is granted the log's `mu`, and tells the watchers next. -/
def TakesLogMu (a : Goroutine) : Prop :=
  a.announced = true ∧ a.next = some (.lock .logMu .write) ∧
    a.pass.next = some (.lock .watcherMu .read)

instance (a : Goroutine) : Decidable (TakesWatcherMu a) := inferInstanceAs (Decidable (_ ∧ _))
instance (a : Goroutine) : Decidable (TakesLogMu a) := inferInstanceAs (Decidable (_ ∧ _))

/-- An operation that takes a lock with more than `mu` or `compactMu` held has just taken one. -/
theorem just_took (hfollows : Follows allowed a.held a.rest) {k : Lock} {n : Mode}
    (hnext : a.pass.next = some (.lock k n)) (htight : ¬ Loose a.pass.held) :
    ∃ l m, a.next = some (.lock l m) ∧ a.pass.held = (l, m) :: a.held := by
  cases hrest : a.rest with
  | nil =>
    rw [Thread.next, Thread.pass_rest, hrest] at hnext
    cases hnext
  | cons i rest =>
    have hhead : rest.head? = some (.lock k n) := by
      rw [← hnext, Thread.next, Thread.pass_rest, hrest, List.tail_cons]
    have hheld : a.pass.held = i.after a.held := by simp [Thread.pass, hrest]
    rw [hrest] at hfollows
    rw [hheld] at htight
    cases i with
    | lock l m => exact ⟨l, m, by simp [Thread.next, hrest], hheld⟩
    | unlock l m =>
      obtain ⟨held', hsplit, hloose⟩ := hfollows.1
      refine absurd ?_ htight
      rw [Instr.after, hsplit, List.erase_cons_head]
      exact hloose k n hhead
    | other e =>
      refine absurd ?_ htight
      cases e with
      | add op => exact hfollows.1.2 k n hhead
      | transfer => exact .inl hfollows.1

theorem not_loose_of_mem {held : List (Lock × Mode)}
    (h : (.watcherMu, .write) ∈ held ∨ (.logMu, .write) ∈ held) : ¬ Loose held := by
  rintro (rfl | ⟨m, rfl⟩ | rfl) <;> simp at h

theorem ReadsHead.takes (hfollows : Follows allowed a.held a.rest)
    (hann : ∀ l, a.next = some (.lock l .write) → a.announced = true) (h : ReadsHead a.pass) :
    TakesWatcherMu a := by
  have htight := not_loose_of_mem (.inl h.1)
  obtain ⟨l, m, hnext, hheld⟩ := just_took hfollows h.2 htight
  obtain ⟨rest, -, hallowed⟩ := hfollows.pass.next h.2
  rw [hheld] at hallowed htight
  rcases hallowed with hloose | hwatcher
  · exact absurd hloose htight
  · obtain ⟨hlm, -⟩ := List.cons.inj hwatcher
    cases hlm
    exact ⟨hann _ hnext, hnext, h.2⟩

theorem Notifies.takes (hfollows : Follows allowed a.held a.rest)
    (hann : ∀ l, a.next = some (.lock l .write) → a.announced = true) (h : Notifies a.pass) :
    TakesLogMu a := by
  obtain ⟨l, m, hnext, hheld⟩ := just_took hfollows h.2 (not_loose_of_mem (.inr h.1))
  obtain ⟨rest, -, hallowed⟩ := hfollows.pass.next h.2
  have hlog := h.1
  rw [hheld] at hallowed hlog
  rcases hallowed with hmu | hboth
  · rw [hmu] at hlog
    simp at hlog
  · obtain ⟨hlm, -⟩ := List.cons.inj hboth
    cases hlm
    exact ⟨hann _ hnext, hnext, h.2⟩

theorem TakesWatcherMu.readsHead (h : TakesWatcherMu a) : ReadsHead a.pass := by
  obtain ⟨rest, hrest⟩ := List.head?_eq_some_iff.mp h.2.1
  exact ⟨by simp [Thread.pass, hrest, Instr.after], h.2.2⟩

theorem TakesLogMu.notifies (h : TakesLogMu a) : Notifies a.pass := by
  obtain ⟨rest, hrest⟩ := List.head?_eq_some_iff.mp h.2.1
  exact ⟨by simp [Thread.pass, hrest, Instr.after], h.2.2⟩

namespace LockState

variable {s s' : LockState}
variable {t : Nat}

/-- `Watch` takes `watcherMu` only while no commit that has the log's `mu` is yet to tell the watchers, and
a commit takes the log's `mu` only while no `Watch` that has `watcherMu` is yet to read the head. -/
def Uncrossed (s : LockState) (a : Goroutine) : Prop :=
  (TakesWatcherMu a → ∀ b ∈ s.threads, ¬ Notifies b) ∧
  (TakesLogMu a → ∀ b ∈ s.threads, ¬ ReadsHead b)

/-- A rotation comes to its send only while there is room or the archiver is not about to take the log's
`mu`; the archiver comes to that lock only while there is room or no rotation is at its send; and the last
place is taken only while the archiver is not there or no other rotation is at its send. -/
def Unstalled (s : LockState) (t : Nat) (a : Goroutine) : Prop :=
  (Rotates a.moved → archiverCapacity ≤ s.queue.length → ∀ ar ∈ s.threads[0]?, ¬ Archives ar) ∧
  (t = 0 → Archives a.moved → archiverCapacity ≤ s.queue.length → ∀ b ∈ s.threads, ¬ Rotates b) ∧
  (Adds a → archiverCapacity ≤ s.queue.length + 1 → ∀ ar ∈ s.threads[0]?, Archives ar →
    ∀ b ∈ s.threads.eraseIdx t, ¬ Rotates b)

/-- The step keeps the operations apart. -/
def Apart (s : LockState) : Action → Prop
  | .move t => ∀ a ∈ s.threads[t]?, s.Uncrossed a ∧ s.Unstalled t a
  | _ => True

instance (s : LockState) (act : Action) : Decidable (s.Apart act) := by
  unfold Apart Uncrossed Unstalled
  cases act <;> infer_instance

/-- What is crosswise after one goroutine has changed. -/
theorem crosswise_set_iff {a' : Goroutine} (hcross : ¬ s.Crosswise) (ht : t < s.threads.length)
    (hts : s'.threads = s.threads.set t a') :
    s'.Crosswise ↔
      (ReadsHead a' ∧ ∃ b ∈ s.threads.eraseIdx t, Notifies b) ∨
      (Notifies a' ∧ ∃ b ∈ s.threads.eraseIdx t, ReadsHead b) := by
  have hmem : ∀ b, b ∈ s'.threads ↔ b = a' ∨ b ∈ s.threads.eraseIdx t := fun b => by
    rw [hts, mem_set_iff ht]
  constructor
  · rintro ⟨⟨x, hx, hreads⟩, y, hy, hnotifies⟩
    rcases (hmem x).mp hx with rfl | hx
    · rcases (hmem y).mp hy with rfl | hy
      · -- One goroutine is not at two instructions.
        exact absurd (hreads.2.symm.trans hnotifies.2) (by simp)
      · exact .inl ⟨hreads, y, hy, hnotifies⟩
    · rcases (hmem y).mp hy with rfl | hy
      · exact .inr ⟨hnotifies, x, hx, hreads⟩
      · exact absurd ⟨⟨x, mem_of_mem_eraseIdx hx, hreads⟩, y, mem_of_mem_eraseIdx hy,
          hnotifies⟩ hcross
  · rintro (⟨hreads, b, hb, hnotifies⟩ | ⟨hnotifies, b, hb, hreads⟩)
    · exact ⟨⟨a', (hmem a').mpr (.inl rfl), hreads⟩, b, (hmem b).mpr (.inr hb), hnotifies⟩
    · exact ⟨⟨b, (hmem b).mpr (.inr hb), hreads⟩, a', (hmem a').mpr (.inl rfl), hnotifies⟩

/-- Who is at another instruction than the goroutine that moves is another goroutine. -/
theorem mem_others {b : Goroutine} (ha : s.threads[t]? = some a) (hb : b ∈ s.threads)
    (hne : a.next ≠ b.next) : b ∈ s.threads.eraseIdx t := by
  obtain ⟨u, hu⟩ := getElem?_of_mem hb
  refine List.mem_eraseIdx_iff_getElem?.mpr ⟨u, fun hut => ?_, hu⟩
  subst hut
  obtain rfl := Option.some.inj (ha.symm.trans hu)
  exact hne rfl

theorem Inv.crosswise_move_iff (h : s.Inv) (hcross : ¬ s.Crosswise) (hmove : s.move t = some s') :
    ¬ s'.Crosswise ↔ ∀ a ∈ s.threads[t]?, s.Uncrossed a := by
  obtain ⟨a, a', ha, hts, hcases, -⟩ := move_spec hmove
  have hmem := mem_of_getElem? ha
  have hfollows := h.follows a hmem
  have ht := (List.getElem?_eq_some_iff.mp ha).1
  rw [crosswise_set_iff hcross ht hts, ha]
  rcases hcases with ⟨l, hnext, hann, rfl⟩ | ⟨hann, rfl⟩
  · -- An announcement changes nothing that matters here.
    refine iff_of_true ?_ fun b hb => ?_
    · rintro (⟨hreads, b, hb, hnotifies⟩ | ⟨hnotifies, b, hb, hreads⟩)
      · exact hcross ⟨⟨a, hmem, hreads⟩, b, mem_of_mem_eraseIdx hb, hnotifies⟩
      · exact hcross ⟨⟨b, mem_of_mem_eraseIdx hb, hreads⟩, a, hmem, hnotifies⟩
    · obtain rfl := Option.some.inj hb
      exact ⟨fun htakes => absurd (hann.symm.trans htakes.1) nofun,
        fun htakes => absurd (hann.symm.trans htakes.1) nofun⟩
  · constructor
    · intro hnot b hb
      obtain rfl := Option.some.inj hb
      refine ⟨fun htakes b hb hnotifies => hnot (.inl ⟨htakes.readsHead, b, ?_, hnotifies⟩),
        fun htakes b hb hreads => hnot (.inr ⟨htakes.notifies, b, ?_, hreads⟩)⟩
      · exact mem_others ha hb (by simp [htakes.2.1, hnotifies.2])
      · exact mem_others ha hb (by simp [htakes.2.1, hreads.2])
    · intro hapart
      obtain ⟨hwatcher, hlog⟩ := hapart a rfl
      rintro (⟨hreads, b, hb, hnotifies⟩ | ⟨hnotifies, b, hb, hreads⟩)
      · exact hwatcher (hreads.takes hfollows hann) b (mem_of_mem_eraseIdx hb) hnotifies
      · exact hlog (hnotifies.takes hfollows hann) b (mem_of_mem_eraseIdx hb) hreads

/-- A new or idle goroutine holds nothing. -/
theorem not_crosswise_of_mem (hcross : ¬ s.Crosswise) (program : Program)
    (hmem : ∀ a ∈ s'.threads, a ∈ s.threads ∨ a = Thread.start program) : ¬ s'.Crosswise := by
  rintro ⟨⟨a, ha, hreads⟩, b, hb, hnotifies⟩
  rcases hmem a ha with ha | rfl
  · rcases hmem b hb with hb | rfl
    · exact hcross ⟨⟨a, ha, hreads⟩, b, hb, hnotifies⟩
    · exact absurd hnotifies.1 nofun
  · exact absurd hreads.1 nofun

/-- After a send a goroutine is not at another one with the log's `mu` held. -/
theorem not_rotates_moved (hfollows : Follows allowed a.held a.rest)
    (hadds : Adds a) : ¬ Rotates a.moved := by
  obtain ⟨op, hop⟩ := adds_iff.mp hadds
  obtain ⟨rest, hrest, hallowed⟩ := hfollows.next hop
  have hmoved : a.moved = ⟨a.held, rest, false⟩ := by
    simp [Thread.moved, hop, Thread.pass, hrest, Instr.after]
  rintro ⟨hheld, hadds'⟩
  rw [hmoved] at hheld hadds'
  obtain ⟨op', hop'⟩ := adds_iff.mp hadds'
  rcases hallowed.1 with hcompact | ⟨-, hno⟩
  · rw [hcompact] at hheld
    simp at hheld
  · exact hno op' hop'

theorem Inv.stalled_move_iff (h : s.Inv) (hstall : ¬ s.Stalled) (hmove : s.move t = some s') :
    ¬ s'.Stalled ↔ ∀ a ∈ s.threads[t]?, s.Unstalled t a := by
  obtain ⟨a, a', ha, hts, hcases, hqueue⟩ := move_spec hmove
  obtain rfl := Thread.eq_moved hcases
  obtain ⟨ar, har, -⟩ := h.archiver
  have ht := (List.getElem?_eq_some_iff.mp ha).1
  have hfollows := h.follows a (mem_of_getElem? ha)
  have hmem : ∀ b, b ∈ s'.threads ↔ b = a.moved ∨ b ∈ s.threads.eraseIdx t := fun b => by
    rw [hts, mem_set_iff ht]
  simp only [ha, Option.mem_some_iff, forall_eq']
  by_cases ht0 : t = 0
  · -- The archiver moves: it sends nothing, and may come to the log's `mu`.
    subst ht0
    have hquiet : ¬ Adds a := h.not_adds_archiver ha fun i hi => hi
    have hquiet' : ¬ Adds a.moved := h.not_adds_archiver ha a.moved_rest_subset
    have har' : s'.threads[0]? = some a.moved := by rw [hts, List.getElem?_set_self ht]
    rw [if_neg hquiet, Nat.add_zero] at hqueue
    constructor
    · intro hnot
      refine ⟨fun hrot => absurd hrot.2 hquiet', fun _ harch hfull b hb hrot => ?_,
        fun hadds => absurd hadds hquiet⟩
      have hother : b ∈ s.threads.eraseIdx 0 := mem_others ha hb fun heq => hquiet
        (by rw [adds_iff, heq]; exact adds_iff.mp hrot.2)
      exact hnot ⟨hqueue ▸ hfull, ⟨a.moved, har', harch⟩, b, (hmem b).mpr (.inr hother), hrot⟩
    · rintro ⟨-, hcomes, -⟩ ⟨hfull, ⟨x, hx, harch⟩, b, hb, hrot⟩
      obtain rfl := Option.some.inj (har'.symm.trans hx)
      rcases (hmem b).mp hb with rfl | hb
      · exact hquiet' hrot.2
      · exact hcomes rfl harch (hqueue ▸ hfull) b (mem_of_mem_eraseIdx hb) hrot
  · have har' : s'.threads[0]? = some ar := by
      rw [hts, List.getElem?_set_ne ht0]
      exact har
    by_cases hadds : Adds a
    · -- A send: the queue is longer by one.
      have hself' : ¬ Rotates a.moved := not_rotates_moved hfollows hadds
      rw [if_pos hadds] at hqueue
      constructor
      · intro hnot
        refine ⟨fun hrot => absurd hrot hself', fun h0 => absurd h0 ht0,
          fun _ hfull x hx harch b hb hrot => ?_⟩
        obtain rfl := Option.some.inj (har.symm.trans hx)
        exact hnot ⟨hqueue ▸ hfull, ⟨ar, har', harch⟩, b, (hmem b).mpr (.inr hb), hrot⟩
      · rintro ⟨-, -, hlast⟩ ⟨hfull, ⟨x, hx, harch⟩, b, hb, hrot⟩
        obtain rfl := Option.some.inj (har'.symm.trans hx)
        rcases (hmem b).mp hb with rfl | hb
        · exact hself' hrot
        · exact hlast hadds (hqueue ▸ hfull) ar har harch b hb hrot
    · -- Neither: only this goroutine can have come to a send.
      rw [if_neg hadds, Nat.add_zero] at hqueue
      constructor
      · intro hnot
        refine ⟨fun hrot hfull x hx harch => ?_, fun h0 => absurd h0 ht0,
          fun hadds' => absurd hadds' hadds⟩
        obtain rfl := Option.some.inj (har.symm.trans hx)
        exact hnot ⟨hqueue ▸ hfull, ⟨ar, har', harch⟩, a.moved, (hmem _).mpr (.inl rfl), hrot⟩
      · rintro ⟨hcomes, -, -⟩ ⟨hfull, ⟨x, hx, harch⟩, b, hb, hrot⟩
        obtain rfl := Option.some.inj (har'.symm.trans hx)
        rcases (hmem b).mp hb with rfl | hb
        · exact hcomes hrot (hqueue ▸ hfull) ar har harch
        · exact hstall ⟨hqueue ▸ hfull, ⟨ar, har, harch⟩, b, mem_of_mem_eraseIdx hb, hrot⟩

/-- A new operation holds nothing, and a busy archiver is at its transfer. -/
theorem Inv.not_stalled_of_idle (h : s.Inv) (hstall : ¬ s.Stalled) {act : Action}
    (hact : ∀ t, act ≠ .move t) (hstep : s.step act = some s') : ¬ s'.Stalled := by
  obtain ⟨ar, har, -⟩ := h.archiver
  cases act with
  | move t => exact absurd rfl (hact t)
  | call op =>
    cases hstep
    rintro ⟨hfull, ⟨x, hx, harch⟩, b, hb, hrot⟩
    rcases List.mem_append.mp hb with hb | hb
    · refine hstall ⟨hfull, ⟨x, ?_, harch⟩, b, hb, hrot⟩
      have hlen := (List.getElem?_eq_some_iff.mp har).1
      exact (List.getElem?_append_left hlen).symm.trans hx
    · obtain rfl := mem_singleton.mp hb
      cases hrot.1
  | take =>
    simp only [LockState.step, LockState.take] at hstep
    split at hstep
    · next a op queue ha hqueue =>
      split at hstep
      · cases hstep
        rintro ⟨-, ⟨x, hx, harch⟩, -⟩
        rw [List.getElem?_set_self (List.getElem?_eq_some_iff.mp ha).1] at hx
        cases hx
        cases harch
      · cases hstep
    · cases hstep

/-- One step. -/
theorem Inv.circularWait_step_iff (h : s.Inv) (hfree : ¬ s.CircularWait) {act : Action}
    (hstep : s.step act = some s') : ¬ s'.CircularWait ↔ s.Apart act := by
  have hcross : ¬ s.Crosswise := fun hc => hfree (h.circularWait_iff.mpr (.inl hc))
  have hstall : ¬ s.Stalled := fun hs => hfree (h.circularWait_iff.mpr (.inr hs))
  rw [(Inv.step s act s' h hstep).circularWait_iff, not_or]
  cases act with
  | move t =>
    rw [h.crosswise_move_iff hcross hstep, h.stalled_move_iff hstall hstep]
    exact ⟨fun hboth a ha => ⟨hboth.1 a ha, hboth.2 a ha⟩,
      fun hall => ⟨fun a ha => (hall a ha).1, fun a ha => (hall a ha).2⟩⟩
  | call op =>
    refine iff_of_true ⟨?_, h.not_stalled_of_idle hstall (by simp) hstep⟩ trivial
    cases hstep
    refine not_crosswise_of_mem hcross op.program fun a ha => ?_
    simpa using ha
  | take =>
    refine iff_of_true ⟨?_, h.not_stalled_of_idle hstall (by simp) hstep⟩ trivial
    simp only [LockState.step, LockState.take] at hstep
    split at hstep
    · split at hstep
      · cases hstep
        exact not_crosswise_of_mem hcross _ fun a ha => List.mem_or_eq_of_mem_set ha
      · cases hstep
    · cases hstep

end LockState

/-- No circular wait: there is none in any state of a run, whatever operations it begins and however they
interleave, exactly if every step keeps them apart. -/
theorem no_circular_wait_iff (queue : List ArchiveOp) {actions : List LockState.Action}
    {s : LockState} (hrun : Transition.run LockState.step (LockState.start queue) actions = some s) :
    Transition.Always LockState.step (fun s => ¬ s.CircularWait) (LockState.start queue) actions ↔
      Transition.Each LockState.step LockState.Apart (LockState.start queue) actions := by
  have hinv := LockState.Inv.start queue
  refine always_iff_each LockState.Inv.step
    (fun s act s' hs hfree hstep => hs.circularWait_step_iff hfree hstep) hrun hinv ?_
  rw [hinv.circularWait_iff]
  rintro (⟨⟨a, ha, hreads⟩, -⟩ | ⟨-, -, b, hb, hrotates⟩)
  · obtain rfl := mem_singleton.mp ha
    exact absurd hreads.1 nofun
  · obtain rfl := mem_singleton.mp hb
    exact absurd hrotates.1 nofun

namespace LockState

/-- A number of instructions of one goroutine. -/
def moves (t n : Nat) : List Action := List.replicate n (.move t)

/-- A `Watch` and a commit with a rotation; the `Watch` waits for `watcherMu` until the commit has told the
watchers.  Then the file is archived. -/
def watchBesideCommit : List Action :=
  [.call (.watch false false), .call (.commitBatch true true)] ++ moves 1 2 ++ moves 2 5 ++
    moves 1 1 ++ moves 2 4 ++ moves 1 4 ++ [.take] ++ moves 0 4

/-- The commit has the log's `mu` when the `Watch` takes `watcherMu`. -/
def watchAcrossCommit : List Action :=
  [.call (.watch false false), .call (.commitBatch true false)] ++ moves 2 4 ++ moves 1 4

/-- The archiver takes an operation from a full queue.  A first rotation fills the queue again, a second one
finds it full, and then the upload is done. -/
def rotateTwice : List Action :=
  [.take, .call (.commitBatch true true), .call (.commitBatch true true)] ++ moves 1 9 ++
    moves 2 6 ++ moves 0 1

end LockState

theorem no_circular_wait_watchBesideCommit : ∃ s,
    Transition.run LockState.step (LockState.start []) LockState.watchBesideCommit = some s ∧
    (s.threads.map fun a => a.rest.length) = [0, 0, 0] ∧
    Transition.Always LockState.step (fun s => ¬ s.CircularWait) (LockState.start [])
      LockState.watchBesideCommit := by
  obtain ⟨s, hs, hdone⟩ : ∃ s,
      run LockState.step (LockState.start []) LockState.watchBesideCommit = some s ∧
      (s.threads.map fun a => a.rest.length) = [0, 0, 0] :=
    by decide +kernel
  exact ⟨s, hs, hdone, (no_circular_wait_iff [] hs).mpr (by decide +kernel)⟩

/-- A `Watch` and a commit wait for each other, and so do a rotation and the archiver. -/
theorem circular_waits :
    (∃ s, Transition.run LockState.step (LockState.start []) LockState.watchAcrossCommit = some s ∧
      s.WaitsFor 1 2 ∧ s.WaitsFor 2 1 ∧ s.CircularWait) ∧
    ∃ s, Transition.run LockState.step
        (LockState.start (List.replicate archiverCapacity ⟨false⟩)) LockState.rotateTwice = some s ∧
      s.WaitsFor 2 0 ∧ s.WaitsFor 0 2 ∧ s.CircularWait := by
  constructor
  · obtain ⟨s, hs, h1, h2⟩ : ∃ s,
        run LockState.step (LockState.start []) LockState.watchAcrossCommit = some s ∧
        s.WaitsFor 1 2 ∧ s.WaitsFor 2 1 := by decide +kernel
    exact ⟨s, hs, h1, h2, Circular.of_pair h1 h2⟩
  · obtain ⟨s, hs, h1, h2⟩ : ∃ s, run LockState.step
          (LockState.start (List.replicate archiverCapacity ⟨false⟩)) LockState.rotateTwice = some s ∧
        s.WaitsFor 2 0 ∧ s.WaitsFor 0 2 := by decide +kernel
    exact ⟨s, hs, h1, h2, Circular.of_pair h1 h2⟩

end CloudEtcd
