/-
# CloudEtcd.Lib.RWLocks — threads that take readers-writer locks.

A thread is what it holds and what is left of its program.  The locks are those of Go's `sync.RWMutex`: a
writer first announces itself, which no two writers do at a time, and then waits for the readers inside; a
reader waits for a writer that holds the lock or has announced itself.  A mutex is a lock that is only
taken for writing.  `move` is the next instruction of a thread, which is refused exactly while the thread
waits on another one (`Thread.WaitsOn`).

`Excl` is what the locks guarantee, and `Follows` is a discipline: what may be done next, given what is
held.  Both are kept by every move.  A circular wait is a set of waiters each of which waits for one of the
set (`Circular`); there is none where ranks grow along the waits (`not_circular_of_rank`).
-/
import Mathlib.Tactic

namespace RWLocks

inductive Mode where
  | read
  | write
  deriving DecidableEq, Repr

/-- An instruction; those of type `E` take no lock. -/
inductive Instr (L E : Type*) where
  | lock (l : L) (m : Mode)
  | unlock (l : L) (m : Mode)
  | other (e : E)
  deriving DecidableEq, Repr

/-- A thread; `announced` is set between the two parts of `Lock`. -/
structure Thread (L E : Type*) where
  held : List (L × Mode)
  rest : List (Instr L E)
  announced : Bool
  deriving DecidableEq, Repr

variable {L E : Type*}
variable {α : Type*} {a : Thread L E} {t : Nat}

namespace Thread

/-- A thread at the start of its program. -/
def start (program : List (Instr L E)) : Thread L E := ⟨[], program, false⟩

def next (a : Thread L E) : Option (Instr L E) := a.rest.head?

/-- The thread keeps readers out: it has the lock for writing, or has announced that it will. -/
def Writes (a : Thread L E) (l : L) : Prop :=
  (l, .write) ∈ a.held ∨ a.announced = true ∧ a.next = some (.lock l .write)

instance [DecidableEq L] [DecidableEq E] (a : Thread L E) (l : L) : Decidable (a.Writes l) :=
  inferInstanceAs (Decidable (_ ∨ _))

/-- The next instruction of `a` has to wait for `b`. -/
def WaitsOn (a b : Thread L E) : Prop :=
  match a.next with
  | some (.lock l .read) => b.Writes l
  | some (.lock l .write) => if a.announced then (l, .read) ∈ b.held else b.Writes l
  | _ => False

instance [DecidableEq L] [DecidableEq E] (a b : Thread L E) : Decidable (a.WaitsOn b) := by
  unfold WaitsOn
  split <;> infer_instance

end Thread

/-- What is in a list with one entry replaced: the new entry and the others. -/
theorem mem_set_iff {l : List α} {t : ℕ} (ht : t < l.length) {a b : α} :
    b ∈ l.set t a ↔ b = a ∨ b ∈ l.eraseIdx t := by
  rw [List.mem_eraseIdx_iff_getElem?]
  constructor
  · intro hb
    obtain ⟨u, hu⟩ := List.getElem?_of_mem hb
    by_cases htu : t = u
    · subst htu
      rw [List.getElem?_set_self ht] at hu
      exact .inl (Option.some.inj hu).symm
    · rw [List.getElem?_set_ne htu] at hu
      exact .inr ⟨u, Ne.symm htu, hu⟩
  · rintro (rfl | ⟨u, hu, hb⟩)
    · exact List.mem_set ht b
    · exact List.mem_of_getElem? ((List.getElem?_set_ne (Ne.symm hu)).trans hb)

/-! ## Waiting -/

/-- A waiter needs a lock that the other one holds, or is about to take before it. -/
theorem Thread.WaitsOn.elim {b : Thread L E} (h : a.WaitsOn b) : ∃ l m, a.next = some (.lock l m) ∧
    ((∃ m', (l, m') ∈ b.held) ∨
      (m = .read ∨ a.announced = false) ∧ b.announced = true ∧ b.next = some (.lock l .write)) := by
  unfold Thread.WaitsOn at h
  split at h
  · next l hnext =>
    refine ⟨l, .read, hnext, ?_⟩
    rcases h with h | h
    · exact .inl ⟨_, h⟩
    · exact .inr ⟨.inl rfl, h⟩
  · next l hnext =>
    refine ⟨l, .write, hnext, ?_⟩
    split at h
    · exact .inl ⟨_, h⟩
    · next hann =>
      rcases h with h | h
      · exact .inl ⟨_, h⟩
      · exact .inr ⟨.inr (Bool.eq_false_iff.mpr hann), h⟩
  · cases h

/-- A set of waiters each of which waits for one of the set. -/
def Circular {α : Type*} (waits : α → α → Prop) : Prop :=
  ∃ S : Set α, S.Nonempty ∧ ∀ a ∈ S, ∃ b ∈ S, waits a b

variable {waits : α → α → Prop}

theorem Circular.of_pair {a b : α} (hab : waits a b) (hba : waits b a) : Circular waits := by
  refine ⟨{a, b}, ⟨a, .inl rfl⟩, ?_⟩
  rintro c (rfl | rfl)
  · exact ⟨b, .inr rfl, hab⟩
  · exact ⟨a, .inl rfl, hba⟩

/-- Where bounded ranks grow from a waiter to the waiter it waits for, nobody waits in a circle. -/
theorem not_circular_of_rank (rank : α → ℕ) (bound : ℕ) (hbound : ∀ a, rank a ≤ bound)
    (hrank : ∀ a b c, waits a b → waits b c → rank a < rank b) : ¬ Circular waits := by
  rintro ⟨S, ⟨a, ha⟩, hS⟩
  have hgrows : ∀ n, ∃ b ∈ S, n ≤ rank b := by
    intro n
    induction n with
    | zero => exact ⟨a, ha, Nat.zero_le _⟩
    | succ n ih =>
      obtain ⟨b, hb, hn⟩ := ih
      obtain ⟨c, hc, hbc⟩ := hS b hb
      obtain ⟨d, -, hcd⟩ := hS c hc
      exact ⟨c, hc, hn.trans_lt (hrank b c d hbc hcd)⟩
  obtain ⟨b, -, hb⟩ := hgrows (bound + 1)
  exact absurd (hbound b) (by omega)

/-! ## Exclusion -/

/-- One writer at a time, and no reader beside a writer. -/
structure Excl (ts : List (Thread L E)) : Prop where
  writer : ∀ (l : L) (i j : Nat) (a b : Thread L E), ts[i]? = some a → ts[j]? = some b →
    a.Writes l → b.Writes l → i = j
  reader : ∀ l, ∀ a ∈ ts, ∀ b ∈ ts, (l, .write) ∈ a.held → (l, .read) ∉ b.held

variable {ts : List (Thread L E)}

/-- A thread changes: what it newly writes, reads or holds, no other one writes or reads. -/
theorem Excl.set (h : Excl ts) {a' : Thread L E} (ha : ts[t]? = some a)
    (hwrites : ∀ l, a'.Writes l → a.Writes l ∨ ∀ b ∈ ts, ¬ b.Writes l)
    (hread : ∀ l, (l, .read) ∈ a'.held → (l, .read) ∈ a.held ∨ ∀ b ∈ ts, ¬ b.Writes l)
    (hwrite : ∀ l, (l, .write) ∈ a'.held →
      (l, .write) ∈ a.held ∨ a.Writes l ∧ ∀ b ∈ ts, (l, .read) ∉ b.held) :
    Excl (ts.set t a') := by
  have hmem : a ∈ ts := List.mem_of_getElem? ha
  have hother : ∀ (l : L) (j : Nat) (b : Thread L E), t ≠ j → ts[j]? = some b → a'.Writes l →
      ¬ b.Writes l := by
    intro l j b hj hb ha' hbw
    rcases hwrites l ha' with haw | hnone
    · exact hj (h.writer l t j a b ha hb haw hbw)
    · exact hnone b (List.mem_of_getElem? hb) hbw
  refine ⟨fun l i j x y hx hy hxw hyw => ?_, fun l x hx y hy hxw hyr => ?_⟩
  · by_cases hi : t = i
    · subst hi
      by_contra hj
      rw [List.getElem?_set_ne hj] at hy
      rw [List.getElem?_set_self (List.getElem?_eq_some_iff.mp ha).1] at hx
      obtain rfl := Option.some.inj hx
      exact hother l j y hj hy hxw hyw
    · rw [List.getElem?_set_ne hi] at hx
      by_cases hj : t = j
      · subst hj
        rw [List.getElem?_set_self (List.getElem?_eq_some_iff.mp ha).1] at hy
        obtain rfl := Option.some.inj hy
        exact absurd hxw (hother l i x hi hx hyw)
      · rw [List.getElem?_set_ne hj] at hy
        exact h.writer l i j x y hx hy hxw hyw
  · -- Each of the two is the new thread or an old one.
    rcases List.mem_or_eq_of_mem_set hy with hy' | rfl
    · rcases List.mem_or_eq_of_mem_set hx with hx' | rfl
      · exact h.reader l x hx' y hy' hxw hyr
      · rcases hwrite l hxw with hold | ⟨-, hnone⟩
        · exact h.reader l a hmem y hy' hold hyr
        · exact hnone y hy' hyr
    · rcases List.mem_or_eq_of_mem_set hx with hx' | rfl
      · rcases hread l hyr with hold | hnone
        · exact h.reader l x hx' a hmem hxw hold
        · exact hnone x hx' (.inl hxw)
      · rcases hread l hyr with hold | hnone
        · rcases hwrite l hxw with holdw | ⟨-, hnor⟩
          · exact h.reader l a hmem a hmem holdw hold
          · exact hnor a hmem hold
        · rcases hwrite l hxw with holdw | ⟨haw, -⟩
          · exact hnone a hmem (.inl holdw)
          · exact hnone a hmem haw

theorem Thread.not_writes_start (program : List (Instr L E)) (l : L) :
    ¬ (Thread.start program).Writes l := by
  rintro (h | ⟨h, -⟩)
  · cases h
  · cases h

/-- A new thread. -/
theorem Excl.append (h : Excl ts) (program : List (Instr L E)) :
    Excl (ts ++ [Thread.start program]) := by
  have hold : ∀ (l : L) (i : Nat) (a : Thread L E), (ts ++ [Thread.start program])[i]? = some a →
      a.Writes l → ts[i]? = some a := by
    intro l i a hi ha
    rw [List.getElem?_append] at hi
    split at hi
    · exact hi
    · obtain rfl := List.mem_singleton.mp (List.mem_of_getElem? hi)
      exact absurd ha (Thread.not_writes_start program l)
  have hheld : ∀ (x : L × Mode) (a : Thread L E), a ∈ ts ++ [Thread.start program] → x ∈ a.held →
      a ∈ ts := by
    intro x a ha hx
    rcases List.mem_append.mp ha with ha | ha
    · exact ha
    · obtain rfl := List.mem_singleton.mp ha
      cases hx
  refine ⟨fun l i j a b hi hj ha hb => ?_, fun l a ha b hb hw hr => ?_⟩
  · exact h.writer l i j a b (hold l i a hi ha) (hold l j b hj hb) ha hb
  · exact h.reader l a (hheld _ a ha hw) b (hheld _ b hb hr) hw hr

/-- A thread begins another program, with nothing held. -/
theorem Excl.restart (h : Excl ts) (ha : ts[t]? = some a) (program : List (Instr L E)) :
    Excl (ts.set t (Thread.start program)) :=
  h.set ha (fun l hw => absurd hw (Thread.not_writes_start program l)) nofun nofun

/-! ## Discipline -/

variable [DecidableEq L]

/-- What is held after the instruction. -/
def Instr.after (i : Instr L E) (held : List (L × Mode)) : List (L × Mode) :=
  match i with
  | .lock l m => (l, m) :: held
  | .unlock l m => held.erase (l, m)
  | .other _ => held

/-- The thread after its next instruction. -/
def Thread.pass (a : Thread L E) : Thread L E :=
  match a.rest with
  | [] => a
  | i :: rest => ⟨i.after a.held, rest, false⟩

theorem Thread.pass_rest (a : Thread L E) : a.pass.rest = a.rest.tail := by
  unfold Thread.pass
  cases hrest : a.rest with
  | nil => simp [hrest]
  | cons i rest => rfl

/-- The thread after its next move: a writer that has not announced itself does that first. -/
def Thread.moved (a : Thread L E) : Thread L E :=
  match a.next with
  | some (.lock _ .write) => if a.announced then a.pass else { a with announced := true }
  | _ => a.pass

/-- The two parts of a move, taken together. -/
theorem Thread.eq_moved {a' : Thread L E}
    (h : (∃ l, a.next = some (.lock l .write) ∧ a.announced = false ∧
        a' = { a with announced := true }) ∨
      (∀ l, a.next = some (.lock l .write) → a.announced = true) ∧ a' = a.pass) :
    a' = a.moved := by
  unfold Thread.moved
  rcases h with ⟨l, hnext, hann, rfl⟩ | ⟨hann, rfl⟩
  · simp [hnext, hann]
  · split
    · next l hnext => simp [hann l hnext]
    · rfl

theorem Thread.moved_rest_subset (a : Thread L E) : ∀ i ∈ a.moved.rest, i ∈ a.rest := by
  have hpass : ∀ i ∈ a.pass.rest, i ∈ a.rest := fun i hi =>
    List.mem_of_mem_tail (a.pass_rest ▸ hi)
  unfold Thread.moved
  split
  · split
    · exact hpass
    · exact fun i hi => hi
  · exact hpass

theorem Thread.writes_pass {l : L} :
    a.pass.Writes l → (l, Mode.write) ∈ a.pass.held ∨ a.rest = [] ∧ a.Writes l := by
  unfold Thread.pass
  cases hrest : a.rest with
  | nil => exact fun h => .inr ⟨rfl, h⟩
  | cons i rest =>
    rintro (h | ⟨h, -⟩)
    · exact .inl h
    · cases h

/-- The thread does something that takes no lock. -/
theorem Excl.pass (h : Excl ts) (ha : ts[t]? = some a) (hheld : ∀ x ∈ a.pass.held, x ∈ a.held) :
    Excl (ts.set t a.pass) := by
  refine h.set ha (fun l hw => .inl ?_) (fun l hr => .inl (hheld _ hr)) fun l hw => .inl (hheld _ hw)
  rcases Thread.writes_pass hw with hw | ⟨-, hw⟩
  · exact .inl (hheld _ hw)
  · exact hw

/-- Each instruction of the program is allowed with what is then held and what then comes. -/
def Follows (allowed : List (L × Mode) → Instr L E → List (Instr L E) → Prop) :
    List (L × Mode) → List (Instr L E) → Prop
  | _, [] => True
  | held, i :: rest => allowed held i rest ∧ Follows allowed (i.after held) rest

variable {allowed : List (L × Mode) → Instr L E → List (Instr L E) → Prop}

theorem Follows.pass (h : Follows allowed a.held a.rest) :
    Follows allowed a.pass.held a.pass.rest := by
  unfold Thread.pass
  cases hrest : a.rest with
  | nil => simpa only [hrest] using h
  | cons i rest =>
    rw [hrest] at h
    exact h.2

theorem Follows.moved (h : Follows allowed a.held a.rest) :
    Follows allowed a.moved.held a.moved.rest := by
  unfold Thread.moved
  split
  · split
    · exact h.pass
    · exact h
  · exact h.pass

theorem Follows.next {i : Instr L E} (h : Follows allowed a.held a.rest) (hnext : a.next = some i) :
    ∃ rest, a.rest = i :: rest ∧ allowed a.held i rest := by
  obtain ⟨rest, hrest⟩ : ∃ rest, a.rest = i :: rest := List.head?_eq_some_iff.mp hnext
  rw [hrest] at h
  exact ⟨rest, hrest, h.1⟩

/-! ## Moves -/

variable [DecidableEq E]

/-- The next instruction of a thread, where it is about a lock and the thread need not wait. -/
def move (ts : List (Thread L E)) (t : Nat) : Option (List (Thread L E)) :=
  ts[t]?.bind fun a =>
    if ∃ b ∈ ts, a.WaitsOn b then none
    else
      match a.next with
      | some (.lock _ .write) =>
        some (ts.set t (if a.announced then a.pass else { a with announced := true }))
      | some (.lock _ .read) | some (.unlock _ _) => some (ts.set t a.pass)
      | _ => none

/-- What a move does to the thread that makes it. -/
theorem move_eq_some {ts ts' : List (Thread L E)} (h : move ts t = some ts') :
    ∃ a a', ts[t]? = some a ∧ ts' = ts.set t a' ∧ (∀ b ∈ ts, ¬ a.WaitsOn b) ∧
      ((∃ l, a.next = some (.lock l .write) ∧ a.announced = false ∧
          a' = { a with announced := true }) ∨
        (∀ l, a.next = some (.lock l .write) → a.announced = true) ∧ a' = a.pass) := by
  obtain ⟨a, ha, hmove⟩ := Option.bind_eq_some_iff.mp h
  split at hmove
  · cases hmove
  · next hfree =>
    have hnone : ∀ b ∈ ts, ¬ a.WaitsOn b := fun b hb hw => hfree ⟨b, hb, hw⟩
    split at hmove
    · next l hnext =>
      cases hmove
      cases hann : a.announced with
      | true => exact ⟨a, a.pass, ha, by simp, hnone, .inr ⟨fun _ _ => hann, rfl⟩⟩
      | false => exact ⟨a, _, ha, by simp, hnone, .inl ⟨l, hnext, hann, rfl⟩⟩
    · next l hnext =>
      cases hmove
      exact ⟨a, a.pass, ha, rfl, hnone, .inr ⟨fun k hk => by simp [hnext] at hk, rfl⟩⟩
    · next l m hnext =>
      cases hmove
      exact ⟨a, a.pass, ha, rfl, hnone, .inr ⟨fun k hk => by simp [hnext] at hk, rfl⟩⟩
    · cases hmove

theorem Excl.move (h : Excl ts) {ts' : List (Thread L E)} (hmove : move ts t = some ts') :
    Excl ts' := by
  obtain ⟨a, a', ha, rfl, hfree, ⟨l, hnext, hann, rfl⟩ | ⟨hann, rfl⟩⟩ := move_eq_some hmove
  · -- A writer announces itself: there is no other.
    have hnone : ∀ b ∈ ts, ¬ b.Writes l := fun b hb hw => hfree b hb (by
      simp only [Thread.WaitsOn, hnext, hann]
      exact hw)
    refine h.set ha (fun k hk => ?_) (fun k hk => .inl hk) fun k hk => .inl hk
    rcases hk with hk | ⟨-, hk⟩
    · exact .inl (.inl hk)
    · have hk' : a.next = some (.lock k .write) := hk
      obtain rfl : l = k := by simpa using hnext.symm.trans hk'
      exact .inr hnone
  · cases hrest : a.rest with
    | nil =>
      have hsame : a.pass = a := by simp [Thread.pass, hrest]
      exact h.pass ha (by simp [hsame])
    | cons i rest =>
      have hnext : a.next = some i := by simp [Thread.next, hrest]
      have hheld : a.pass.held = i.after a.held := by simp [Thread.pass, hrest]
      cases i with
      | other e => exact h.pass ha (by simp [hheld, Instr.after])
      | unlock l m => exact h.pass ha fun x hx => List.mem_of_mem_erase (hheld ▸ hx)
      | lock l m =>
        -- The thread had to wait for nobody, so what it takes is free.
        have hheld' : ∀ x, x ∈ a.pass.held ↔ x = (l, m) ∨ x ∈ a.held := by
          simp [hheld, Instr.after]
        have hwrites : ∀ k, a.pass.Writes k → (k, .write) ∈ a.pass.held := fun k hk => by
          rcases Thread.writes_pass hk with hk | ⟨hnil, -⟩
          · exact hk
          · rw [hrest] at hnil
            cases hnil
        cases m with
        | read =>
          have hnone : ∀ b ∈ ts, ¬ b.Writes l := fun b hb hw => hfree b hb (by
            simp only [Thread.WaitsOn, hnext]
            exact hw)
          refine h.set ha (fun k hk => ?_) (fun k hk => ?_) fun k hk => ?_
          · rcases (hheld' _).mp (hwrites k hk) with heq | hold
            · cases heq
            · exact .inl (.inl hold)
          · rcases (hheld' _).mp hk with heq | hold
            · cases heq
              exact .inr hnone
            · exact .inl hold
          · rcases (hheld' _).mp hk with heq | hold
            · cases heq
            · exact .inl hold
        | write =>
          have hann' := hann l hnext
          have hnone : ∀ b ∈ ts, (l, .read) ∉ b.held := fun b hb hr => hfree b hb (by
            simp only [Thread.WaitsOn, hnext, hann']
            exact hr)
          refine h.set ha (fun k hk => ?_) (fun k hk => ?_) fun k hk => ?_
          · rcases (hheld' _).mp (hwrites k hk) with heq | hold
            · cases heq
              exact .inl (.inr ⟨hann', hnext⟩)
            · exact .inl (.inl hold)
          · rcases (hheld' _).mp hk with heq | hold
            · cases heq
            · exact .inl hold
          · rcases (hheld' _).mp hk with heq | hold
            · cases heq
              exact .inr ⟨.inr ⟨hann', hnext⟩, hnone⟩
            · exact .inl hold

end RWLocks
