/-
# CloudEtcd.Lib.Blocks — overlapping blocks that cover an initial segment of the numbers.

A set of blocks `[first n, last n]` is a `Line` up to `N` when one of them starts at 1 and each that
ends before `N` is followed by one that starts right behind it.  The blocks may overlap: a block and the
blocks it was merged from can be in the set together.  A line covers `1 .. N` (`Line.covers`).  Some
blocks are `whole`: no block starts inside them.

A list of operations on such a set is a `Plan` from `M` to `N` when the set is a line before and after
each of them and its end never moves back.
-/
import Mathlib.Data.Set.Insert
import Mathlib.Tactic

namespace Blocks

variable {ι : Type*} {first last : ι → ℕ} {whole : ι → Prop} {S : Set ι} {N : ℕ}

/-- The blocks form a line up to `N`. -/
structure Line (first last : ι → ℕ) (whole : ι → Prop) (S : Set ι) (N : ℕ) : Prop where
  bounds : ∀ n ∈ S, 1 ≤ first n ∧ first n ≤ last n ∧ last n ≤ N
  start : 0 < N → ∃ n ∈ S, first n = 1
  next : ∀ n ∈ S, last n = N ∨ ∃ m ∈ S, first m = last n + 1
  whole : ∀ n ∈ S, whole n → ∀ m ∈ S, ¬ (first n < first m ∧ first m ≤ last n)

variable {x : ι}

namespace Line

theorem empty : Line first last whole (∅ : Set ι) 0 where
  bounds := fun _ hn => absurd hn (Set.notMem_empty _)
  start := fun h => absurd h (lt_irrefl 0)
  next := fun _ hn => absurd hn (Set.notMem_empty _)
  whole := fun _ hn => absurd hn (Set.notMem_empty _)

section

variable (h : Line first last whole S N)
include h

/-- A line has no gap. -/
theorem covers {r : ℕ} (h1 : 1 ≤ r) (hN : r ≤ N) : ∃ n ∈ S, first n ≤ r ∧ r ≤ last n := by
  induction r, h1 using Nat.le_induction with
  | base =>
    obtain ⟨n, hn, hfirst⟩ := h.start (by omega)
    have := h.bounds n hn
    exact ⟨n, hn, by omega, by omega⟩
  | succ r _ ih =>
    obtain ⟨n, hn, hle, hlast⟩ := ih (by omega)
    by_cases hin : r + 1 ≤ last n
    · exact ⟨n, hn, by omega, hin⟩
    · -- The block that covers `r` ends there, and the next one starts behind it.
      rcases h.next n hn with hend | ⟨m, hm, hfirst⟩
      · omega
      · have := h.bounds m hm
        exact ⟨m, hm, by omega, by omega⟩

/-- The ends are those of the blocks in the set. -/
theorem congr {last' : ι → ℕ} (heq : ∀ n ∈ S, last n = last' n) :
    Line first last' whole S N where
  bounds := fun n hn => by
    rw [← heq n hn]
    exact h.bounds n hn
  start := h.start
  next := fun n hn => by
    rw [← heq n hn]
    exact h.next n hn
  whole := fun n hn hwhole m hm => by
    rw [← heq n hn]
    exact h.whole n hn hwhole m hm

/-- A block is added behind the last one. -/
theorem add_end (hfirst : first x = N + 1) (hle : first x ≤ last x) :
    Line first last whole (insert x S) (last x) where
  bounds := by
    rintro n (rfl | hn)
    · omega
    · have := h.bounds n hn
      omega
  start := by
    intro _
    rcases Nat.eq_zero_or_pos N with hN | hN
    · exact ⟨x, Set.mem_insert x S, by omega⟩
    · obtain ⟨n, hn, h1⟩ := h.start hN
      exact ⟨n, Set.mem_insert_of_mem x hn, h1⟩
  next := by
    rintro n (rfl | hn)
    · exact Or.inl rfl
    · rcases h.next n hn with hend | ⟨m, hm, hm1⟩
      · exact Or.inr ⟨x, Set.mem_insert x S, by omega⟩
      · exact Or.inr ⟨m, Set.mem_insert_of_mem x hm, hm1⟩
  whole := by
    rintro n (rfl | hn) hwhole m (rfl | hm)
    · omega
    · have := h.bounds m hm
      omega
    · have := h.bounds n hn
      omega
    · exact h.whole n hn hwhole m hm

/-- A block is added over others. -/
theorem add_over (h1 : 1 ≤ first x) (hle : first x ≤ last x) (hN : last x ≤ N)
    (hnext : last x = N ∨ ∃ m ∈ S, first m = last x + 1) (hx : ¬ whole x)
    (hin : ∀ n ∈ S, whole n → ¬ (first n < first x ∧ first x ≤ last n)) :
    Line first last whole (insert x S) N where
  bounds := by
    rintro n (rfl | hn)
    · exact ⟨h1, hle, hN⟩
    · exact h.bounds n hn
  start := fun hpos => by
    obtain ⟨n, hn, hfirst⟩ := h.start hpos
    exact ⟨n, Set.mem_insert_of_mem x hn, hfirst⟩
  next := by
    rintro n (rfl | hn)
    · exact hnext.imp_right fun ⟨m, hm, heq⟩ => ⟨m, Set.mem_insert_of_mem n hm, heq⟩
    · exact (h.next n hn).imp_right fun ⟨m, hm, heq⟩ => ⟨m, Set.mem_insert_of_mem x hm, heq⟩
  whole := by
    rintro n (rfl | hn) hwhole m hm
    · exact absurd hwhole hx
    · rcases hm with rfl | hm
      · exact hin n hn hwhole
      · exact h.whole n hn hwhole m hm

/-- A block is dropped when others start where it does, for the start and for the blocks in front of
it. -/
theorem drop (hstart : 0 < N → first x = 1 → ∃ m ∈ S, m ≠ x ∧ first m = 1)
    (hnext : ∀ n ∈ S, n ≠ x → first x = last n + 1 → ∃ m ∈ S, m ≠ x ∧ first m = first x) :
    Line first last whole (S \ {x}) N where
  bounds := fun n hn => h.bounds n hn.1
  start := fun hpos => by
    obtain ⟨n, hn, hfirst⟩ := h.start hpos
    by_cases hnx : n = x
    · obtain ⟨m, hm, hmx, hm1⟩ := hstart hpos (hnx ▸ hfirst)
      exact ⟨m, ⟨hm, hmx⟩, hm1⟩
    · exact ⟨n, ⟨hn, hnx⟩, hfirst⟩
  next := by
    rintro n ⟨hn, hnx⟩
    rcases h.next n hn with hend | ⟨m, hm, heq⟩
    · exact Or.inl hend
    · by_cases hmx : m = x
      · subst hmx
        obtain ⟨k, hk, hkx, hkf⟩ := hnext n hn hnx heq
        exact Or.inr ⟨k, ⟨hk, hkx⟩, hkf.trans heq⟩
      · exact Or.inr ⟨m, ⟨hm, hmx⟩, heq⟩
  whole := fun n hn hwhole m hm => h.whole n hn.1 hwhole m hm.1

end

end Line

/-! ## Plans -/

section Plan

variable {α : Type*} {act : α → Set ι → Set ι}

/-- The set after all operations. -/
def play (act : α → Set ι → Set ι) (ops : List α) (S : Set ι) : Set ι :=
  ops.foldl (fun S op => act op S) S

theorem play_cons (op : α) (ops : List α) (S : Set ι) :
    play act (op :: ops) S = play act ops (act op S) := rfl

theorem play_append (ops ops' : List α) (S : Set ι) :
    play act (ops ++ ops') S = play act ops' (play act ops S) := List.foldl_append

/-- The operations lead from a line up to `M` to a line up to `N`, by lines that never get shorter. -/
def Plan (first last : ι → ℕ) (whole : ι → Prop) (act : α → Set ι → Set ι) :
    List α → Set ι → ℕ → ℕ → Prop
  | [], S, M, N => M = N ∧ Line first last whole S N
  | op :: ops, S, M, N => Line first last whole S M ∧
      ∃ M', M ≤ M' ∧ Plan first last whole act ops (act op S) M' N

variable {M K : ℕ} {ops ops' : List α}

section

variable (h : Plan first last whole act ops S M N)
include h

theorem Plan.line : Line first last whole S M := by
  cases ops with
  | nil =>
    obtain ⟨rfl, hline⟩ := h
    exact hline
  | cons op ops => exact h.1

theorem Plan.le : M ≤ N := by
  induction ops generalizing S M with
  | nil => exact Nat.le_of_eq h.1
  | cons op ops ih =>
    obtain ⟨-, M', hle, hrest⟩ := h
    exact hle.trans (ih hrest)

/-- The line at the end. -/
theorem Plan.final : Line first last whole (play act ops S) N := by
  induction ops generalizing S M with
  | nil => exact h.2
  | cons op ops ih =>
    obtain ⟨-, M', -, hrest⟩ := h
    exact ih hrest

end

/-- One plan after another. -/
theorem Plan.append (h : Plan first last whole act ops S M K)
    (h' : Plan first last whole act ops' (play act ops S) K N) :
    Plan first last whole act (ops ++ ops') S M N := by
  induction ops generalizing S M with
  | nil =>
    obtain ⟨rfl, -⟩ := h
    exact h'
  | cons op ops ih =>
    obtain ⟨hline, M', hle, hrest⟩ := h
    exact ⟨hline, M', hle, ih hrest h'⟩

/-- A plan that stays where it is goes on staying there. -/
theorem Plan.head {op : α} (h : Plan first last whole act (op :: ops) S N N) :
    Plan first last whole act [op] S N N ∧ Plan first last whole act ops (act op S) N N := by
  obtain ⟨hline, M', hle, hrest⟩ := h
  obtain rfl := Nat.le_antisymm hle hrest.le
  exact ⟨⟨hline, N, le_rfl, rfl, hrest.line⟩, hrest⟩

/-- Only the ends of the blocks that occur matter. -/
theorem Plan.congr {last' : ι → ℕ} (T : Set ι) (heq : ∀ n ∈ T, last n = last' n)
    (hact : ∀ op ∈ ops, ∀ S ⊆ T, act op S ⊆ T) (hS : S ⊆ T)
    (h : Plan first last whole act ops S M N) : Plan first last' whole act ops S M N := by
  induction ops generalizing S M with
  | nil => exact ⟨h.1, h.2.congr fun n hn => heq n (hS hn)⟩
  | cons op ops ih =>
    obtain ⟨hline, M', hle, hrest⟩ := h
    refine ⟨hline.congr fun n hn => heq n (hS hn), M', hle, ?_⟩
    exact ih (fun op' hop => hact op' (List.mem_cons_of_mem _ hop))
      (hact op List.mem_cons_self S hS) hrest

/-- A block is added behind the last one while a plan that stays where it is has still to be carried
out. -/
theorem Plan.add_end (h : Plan first last whole act ops S N N) (hfirst : first x = N + 1)
    (hle : first x ≤ last x) (hact : ∀ op ∈ ops, ∀ S, act op (insert x S) = insert x (act op S)) :
    Plan first last whole act ops (insert x S) (last x) (last x) := by
  induction ops generalizing S with
  | nil => exact ⟨rfl, h.2.add_end hfirst hle⟩
  | cons op ops ih =>
    obtain ⟨hone, hrest⟩ := h.head
    refine ⟨hone.line.add_end hfirst hle, last x, le_rfl, ?_⟩
    rw [hact op List.mem_cons_self]
    exact ih hrest fun op' hop => hact op' (List.mem_cons_of_mem _ hop)

theorem play_insert (hact : ∀ op ∈ ops, ∀ S, act op (insert x S) = insert x (act op S))
    (S : Set ι) : play act ops (insert x S) = insert x (play act ops S) := by
  induction ops generalizing S with
  | nil => rfl
  | cons op ops ih =>
    rw [play_cons, play_cons, hact op List.mem_cons_self]
    exact ih (fun op' hop => hact op' (List.mem_cons_of_mem _ hop)) _

end Plan

end Blocks
