/-
# CloudEtcd.Lib.Transition — runs of a partial step function.

`run` folds a step function over a list of actions and fails when an action is not enabled.
`run_invariant_on` is the one induction over runs that invariants need: what the start satisfies and
every enabled step keeps holds at the end of every run.

`Always` and `Each` speak of a run as a whole: of all its states, and of all its steps in the states in
which they are taken.  When a step keeps a property exactly if it meets a condition, the property holds
always exactly if each step meets the condition (`always_iff_each`).
-/
import Mathlib.Tactic

namespace Transition

variable {σ α : Type*} (step : σ → α → Option σ)

/-- Take the actions in order. -/
def run : σ → List α → Option σ
  | s, [] => some s
  | s, a :: as => (step s a).bind fun s' => run s' as

variable {step}
variable {s s' t : σ} {as bs : List α} {a : α} {P : σ → Prop} {C : σ → α → Prop}

theorem run_cons_eq_some :
    run step s (a :: as) = some s' ↔ ∃ t, step s a = some t ∧ run step t as = some s' := by
  simp [run, Option.bind_eq_some_iff]

/-- One run after another. -/
theorem run_append :
    run step s (as ++ bs) = some s' ↔ ∃ t, run step s as = some t ∧ run step t bs = some s' := by
  induction as generalizing s with
  | nil => simp [run]
  | cons a as ih =>
    rw [List.cons_append, run_cons_eq_some]
    constructor
    · rintro ⟨u, hstep, hrun⟩
      obtain ⟨t, hrun, hrest⟩ := ih.mp hrun
      exact ⟨t, run_cons_eq_some.mpr ⟨u, hstep, hrun⟩, hrest⟩
    · rintro ⟨t, hrun, hrest⟩
      obtain ⟨u, hstep, hrun⟩ := run_cons_eq_some.mp hrun
      exact ⟨u, hstep, ih.mpr ⟨t, hrun, hrest⟩⟩

/-- The induction over runs whose actions all satisfy a condition. -/
theorem run_invariant_on {A : α → Prop} (hstep : ∀ s a s', A a → P s → step s a = some s' → P s')
    (has : ∀ a ∈ as, A a) (h : run step s as = some s') (hs : P s) : P s' := by
  induction as generalizing s with
  | nil =>
    cases h
    exact hs
  | cons a as ih =>
    obtain ⟨t, ht, hrun⟩ := run_cons_eq_some.mp h
    have ha : A a := has a List.mem_cons_self
    exact ih (fun b hb => has b (List.mem_cons_of_mem _ hb)) hrun (hstep s a t ha hs ht)

/-- The induction over all runs. -/
theorem run_invariant (hstep : ∀ s a s', P s → step s a = some s' → P s')
    (h : run step s as = some s') (hs : P s) : P s' :=
  run_invariant_on (A := fun _ => True) (fun s a s' _ => hstep s a s') (fun _ _ => trivial) h hs

/-! ## All states and all steps of a run -/

variable (step) in
/-- The property holds in every state of the run. -/
def Always (P : σ → Prop) (s : σ) (as : List α) : Prop :=
  ∀ before t, before <+: as → run step s before = some t → P t

variable (step) in
/-- Every step of the run meets the condition in the state in which it is taken. -/
def Each (C : σ → α → Prop) (s : σ) (as : List α) : Prop :=
  ∀ before a t, before ++ [a] <+: as → run step s before = some t → C t a

theorem always_cons (hstep : step s a = some t) :
    Always step P s (a :: as) ↔ P s ∧ Always step P t as := by
  constructor
  · intro h
    refine ⟨h [] s (List.nil_prefix) rfl, fun before u hpre hrun => ?_⟩
    exact h (a :: before) u (List.cons_prefix_cons.mpr ⟨rfl, hpre⟩)
      (run_cons_eq_some.mpr ⟨t, hstep, hrun⟩)
  · rintro ⟨hs, hrest⟩ before u hpre hrun
    cases before with
    | nil =>
      cases hrun
      exact hs
    | cons b before =>
      obtain ⟨rfl, hrestPre⟩ := List.cons_prefix_cons.mp hpre
      obtain ⟨t', ht', hrun⟩ := run_cons_eq_some.mp hrun
      obtain rfl := Option.some.inj (ht'.symm.trans hstep)
      exact hrest before u hrestPre hrun

theorem each_cons (hstep : step s a = some t) :
    Each step C s (a :: as) ↔ C s a ∧ Each step C t as := by
  constructor
  · intro h
    refine ⟨h [] a s (List.cons_prefix_cons.mpr ⟨rfl, List.nil_prefix⟩) rfl,
      fun before b u hpre hrun => ?_⟩
    exact h (a :: before) b u (List.cons_prefix_cons.mpr ⟨rfl, hpre⟩)
      (run_cons_eq_some.mpr ⟨t, hstep, hrun⟩)
  · rintro ⟨hs, hrest⟩ before b u hpre hrun
    cases before with
    | nil =>
      cases hrun
      obtain ⟨rfl, -⟩ := List.cons_prefix_cons.mp hpre
      exact hs
    | cons c before =>
      obtain ⟨rfl, hrestPre⟩ := List.cons_prefix_cons.mp hpre
      obtain ⟨t', ht', hrun⟩ := run_cons_eq_some.mp hrun
      obtain rfl := Option.some.inj (ht'.symm.trans hstep)
      exact hrest before b u hrestPre hrun

theorem each_nil (s : σ) : Each step C s [] := by
  intro before a t hpre
  exact absurd (List.prefix_nil.mp hpre) (by simp)

/-- A run that stops at its first step. -/
theorem each_cons_none (hstep : step s a = none) : Each step C s (a :: as) ↔ C s a := by
  constructor
  · intro h
    exact h [] a s (List.cons_prefix_cons.mpr ⟨rfl, List.nil_prefix⟩) rfl
  · intro hs before b u hpre hrun
    cases before with
    | nil =>
      cases hrun
      obtain ⟨rfl, -⟩ := List.cons_prefix_cons.mp hpre
      exact hs
    | cons c before =>
      obtain ⟨rfl, -⟩ := List.cons_prefix_cons.mp hpre
      obtain ⟨t, ht, -⟩ := run_cons_eq_some.mp hrun
      exact absurd (hstep.symm.trans ht) nofun

/-- The steps of a run can be checked one after another. -/
instance decidableEach {C : σ → α → Prop} [∀ s a, Decidable (C s a)] :
    ∀ (s : σ) (as : List α), Decidable (Each step C s as)
  | s, [] => isTrue (each_nil s)
  | s, a :: as =>
    match hstep : step s a with
    | none => decidable_of_iff (C s a) (each_cons_none hstep).symm
    | some t =>
      have := decidableEach (C := C) t as
      decidable_of_iff (C s a ∧ Each step C t as) (each_cons hstep).symm

/-- If, beside an invariant, a step keeps the property exactly when it meets the condition, then the
property holds all along a run exactly when every step meets the condition; for runs whose actions all
satisfy `A`. -/
theorem always_iff_each_on {I : σ → Prop} {A : α → Prop}
    (hinv : ∀ s a s', A a → I s → step s a = some s' → I s')
    (hstep : ∀ s a s', A a → I s → P s → step s a = some s' → (P s' ↔ C s a)) (has : ∀ a ∈ as, A a)
    (hrun : run step s as = some s') (hI : I s) (hP : P s) :
    Always step P s as ↔ Each step C s as := by
  induction as generalizing s with
  | nil =>
    refine iff_of_true (fun before t hpre ht => ?_) (each_nil s)
    obtain rfl := List.prefix_nil.mp hpre
    cases ht
    exact hP
  | cons a as ih =>
    obtain ⟨t, ht, hrest⟩ := run_cons_eq_some.mp hrun
    have ha : A a := has a List.mem_cons_self
    have has' : ∀ b ∈ as, A b := fun b hb => has b (List.mem_cons_of_mem _ hb)
    rw [always_cons ht, each_cons ht]
    have hiff := hstep s a t ha hI hP ht
    constructor
    · rintro ⟨-, halways⟩
      have hPt : P t := halways [] t List.nil_prefix rfl
      exact ⟨hiff.mp hPt, (ih has' hrest (hinv s a t ha hI ht) hPt).mp halways⟩
    · rintro ⟨hC, heach⟩
      exact ⟨hP, (ih has' hrest (hinv s a t ha hI ht) (hiff.mpr hC)).mpr heach⟩

/-- The same for all runs. -/
theorem always_iff_each {I : σ → Prop} (hinv : ∀ s a s', I s → step s a = some s' → I s')
    (hstep : ∀ s a s', I s → P s → step s a = some s' → (P s' ↔ C s a))
    (hrun : run step s as = some s') (hI : I s) (hP : P s) :
    Always step P s as ↔ Each step C s as :=
  always_iff_each_on (A := fun _ => True) (fun s a s' _ => hinv s a s')
    (fun s a s' _ => hstep s a s') (fun _ _ => trivial) hrun hI hP

/-! ## Invariants of the runs that meet a condition -/

/-- What the steps that meet the condition keep holds at the end of a run of such steps. -/
theorem run_invariant_each {K : σ → Prop} (hK : ∀ s a s', K s → C s a → step s a = some s' → K s')
    (hrun : run step s as = some s') (heach : Each step C s as) (hs : K s) : K s' := by
  induction as generalizing s with
  | nil =>
    cases hrun
    exact hs
  | cons a as ih =>
    obtain ⟨t, ht, hrest⟩ := run_cons_eq_some.mp hrun
    obtain ⟨hC, htail⟩ := (each_cons ht).mp heach
    exact ih hrest htail (hK s a t hs hC ht)

theorem Each.mono (h : Each step C s as) (hpre : bs <+: as) : Each step C s bs :=
  fun before a t hbs ht => h before a t (hbs.trans hpre) ht

theorem Each.left (h : Each step C s (as ++ bs)) : Each step C s as :=
  h.mono (List.prefix_append as bs)

theorem Each.right (h : Each step C s (as ++ bs)) (hrun : run step s as = some t) :
    Each step C t bs := fun before a u hpre hu => by
  refine h (as ++ before) a u ?_ (run_append.mpr ⟨t, hrun, hu⟩)
  rw [List.append_assoc]
  exact (List.prefix_append_right_inj as).mpr hpre

theorem Each.append (has : Each step C s as) (hrun : run step s as = some t)
    (hbs : Each step C t bs) : Each step C s (as ++ bs) := by
  induction as generalizing s with
  | nil =>
    cases hrun
    exact hbs
  | cons a as ih =>
    obtain ⟨u, hu, hrest⟩ := run_cons_eq_some.mp hrun
    obtain ⟨hC, htail⟩ := (each_cons hu).mp has
    exact (each_cons hu).mpr ⟨hC, ih htail hrest⟩

/-- If the first step that does not meet the condition can be ruled out, every step meets it. -/
theorem each_of_first {K : σ → Prop} (hrun : run step s as = some s') (hs : K s)
    (hK : ∀ s a s', K s → C s a → step s a = some s' → K s')
    (hfirst : ∀ before a t u, before ++ [a] <+: as → run step s before = some t → K t →
      step t a = some u → C t a) : Each step C s as := by
  -- The invariant holds in front of every step.
  have hall : ∀ before t, before <+: as → run step s before = some t → K t := by
    intro before
    induction before using List.reverseRecOn with
    | nil =>
      intro t _ ht
      cases ht
      exact hs
    | append_singleton before a ih =>
      intro t hpre ht
      obtain ⟨u, hu, hstep⟩ := run_append.mp ht
      obtain ⟨v, hv, hend⟩ := run_cons_eq_some.mp hstep
      cases hend
      have hu' := ih u ((List.prefix_append before [a]).trans hpre) hu
      exact hK u a t hu' (hfirst before a u t hpre hu hu' hv) hv
  intro before a t hpre ht
  obtain ⟨rest, rfl⟩ := hpre
  obtain ⟨u, hu, -⟩ := run_append.mp hrun
  obtain ⟨t', ht', hstep⟩ := run_append.mp hu
  obtain rfl := Option.some.inj (ht.symm.trans ht')
  obtain ⟨v, hv, -⟩ := run_cons_eq_some.mp hstep
  refine hfirst before a t v (List.prefix_append _ _) ht (hall before t ?_ ht) hv
  exact (List.prefix_append before [a]).trans (List.prefix_append _ _)

/-! ## Evaluated runs -/

section Evaluated

variable {β γ : Type*}

/-- A run on given inputs is evaluated once, with what is said of its end. -/
instance decidableEnds {o : Option β} {p : β → Prop} [DecidablePred p] :
    Decidable (∃ b, o = some b ∧ p b) :=
  decidable_of_iff ((o.any fun b => decide (p b)) = true) (by simp [Option.any_eq_true])

instance decidableReturns {ε : Type*} {e : Except ε β} {p : β → Prop} [DecidablePred p] :
    Decidable (∃ b, e = .ok b ∧ p b) :=
  match e with
  | .error _ => isFalse (by simp)
  | .ok b => decidable_of_iff (p b) (by simp)

instance decidableFails {ε : Type*} [DecidableEq ε] {e : Except ε β} {x : ε} :
    Decidable (e = .error x) :=
  match e with
  | .error y => decidable_of_iff (y = x) (by simp)
  | .ok _ => isFalse nofun

/-- The same for a run from a start that may fail itself. -/
instance decidableEndsFrom {o : Option β} {f : β → Option γ} {p : β → γ → Prop}
    [∀ b c, Decidable (p b c)] : Decidable (∃ b c, o = some b ∧ f b = some c ∧ p b c) :=
  decidable_of_iff (∃ b, o = some b ∧ ∃ c, f b = some c ∧ p b c) (by simp)

end Evaluated

end Transition
