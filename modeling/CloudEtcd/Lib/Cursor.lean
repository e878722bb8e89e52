/-
# CloudEtcd.Lib.Cursor — following a numbered log in chunks.

Position `n` of a log carries the items `sel n`.  A follower that starts behind position `a` and has
come to `b` owes the items `between sel a b`.  It hands them on in chunks: a chunk names the last position
it covers, and positions without items may be passed without a chunk.  `Delivered` is what such a
follower has handed on; its chunks together are exactly what it owes (`Delivered.items`).
-/
import Mathlib.Tactic

namespace Cursor

variable {β : Type*} {sel sel' : ℕ → List β}
variable {a b : ℕ} {cs : List (ℕ × List β)}

/-- The items at the positions above `a` up to `b`. -/
def between (sel : ℕ → List β) (a b : ℕ) : List β := (List.range' (a + 1) (b - a)).flatMap sel

@[simp]
theorem between_self (sel : ℕ → List β) (a : ℕ) : between sel a a = [] := by
  simp [between]

theorem between_of_le (h : b ≤ a) : between sel a b = [] := by
  simp [between, Nat.sub_eq_zero_of_le h]

theorem between_append {c : ℕ} (hab : a ≤ b) (hbc : b ≤ c) :
    between sel a b ++ between sel b c = between sel a c := by
  obtain ⟨m, rfl⟩ := Nat.exists_eq_add_of_le hab
  obtain ⟨n, rfl⟩ := Nat.exists_eq_add_of_le hbc
  have hsplit : List.range' (a + 1) (m + n) =
      List.range' (a + 1) m ++ List.range' (a + m + 1) n := by
    rw [← List.range'_append_1]
    congr 2
    omega
  have h1 : a + m - a = m := by omega
  have h2 : a + m + n - (a + m) = n := by omega
  have h3 : a + m + n - a = m + n := by omega
  rw [between, between, between, h1, h2, h3, hsplit, List.flatMap_append]

theorem between_succ (sel : ℕ → List β) (a : ℕ) : between sel a (a + 1) = sel (a + 1) := by
  simp [between]

theorem between_congr (h : ∀ n, a < n → n ≤ b → sel n = sel' n) :
    between sel a b = between sel' a b := by
  unfold between
  apply List.flatMap_congr
  intro n hn
  rw [List.mem_range'_1] at hn
  exact h n (by omega) (by omega)

/-- The chunks that a follower has handed on between `a` and `b`: each covers the positions from behind
the one before it up to its own, and none is empty. -/
def Delivered (sel : ℕ → List β) : ℕ → List (ℕ × List β) → ℕ → Prop
  | a, [], b => a ≤ b ∧ between sel a b = []
  | a, c :: cs, b => a < c.1 ∧ c.2 = between sel a c.1 ∧ c.2 ≠ [] ∧ Delivered sel c.1 cs b

theorem Delivered.start (sel : ℕ → List β) (a : ℕ) : Delivered sel a [] a :=
  ⟨le_rfl, between_self sel a⟩

section

variable (h : Delivered sel a cs b)
include h

theorem Delivered.le : a ≤ b := by
  induction cs generalizing a with
  | nil => exact h.1
  | cons c cs ih => exact h.1.le.trans (ih h.2.2.2)

/-- The chunks together are what the follower owes. -/
theorem Delivered.items : cs.flatMap Prod.snd = between sel a b := by
  induction cs generalizing a with
  | nil => exact h.2.symm
  | cons c cs ih =>
    obtain ⟨hlt, hitems, -, hrest⟩ := h
    rw [List.flatMap_cons, ih hrest, hitems, between_append hlt.le hrest.le]

/-- Positions without items are passed silently. -/
theorem Delivered.pass {b' : ℕ} (hb : b ≤ b') (hnone : between sel b b' = []) :
    Delivered sel a cs b' := by
  induction cs generalizing a with
  | nil =>
    obtain ⟨hab, hempty⟩ := h
    refine ⟨hab.trans hb, ?_⟩
    rw [← between_append hab hb, hempty, hnone, List.append_nil]
  | cons c cs ih => exact ⟨h.1, h.2.1, h.2.2.1, ih h.2.2.2⟩

/-- The next chunk. -/
theorem Delivered.snoc {b' : ℕ} (hb : b < b') (hsome : between sel b b' ≠ []) :
    Delivered sel a (cs ++ [(b', between sel b b')]) b' := by
  induction cs generalizing a with
  | nil =>
    obtain ⟨hab, hempty⟩ := h
    refine ⟨hab.trans_lt hb, ?_, hsome, Delivered.start sel b'⟩
    rw [← between_append hab hb.le, hempty, List.nil_append]
  | cons c cs ih => exact ⟨h.1, h.2.1, h.2.2.1, ih h.2.2.2⟩

/-- Only the items up to `b` matter. -/
theorem Delivered.congr (hsel : ∀ n, a < n → n ≤ b → sel n = sel' n) : Delivered sel' a cs b := by
  induction cs generalizing a with
  | nil =>
    refine ⟨h.1, ?_⟩
    rw [← between_congr hsel]
    exact h.2
  | cons c cs ih =>
    obtain ⟨hlt, hitems, hne, hrest⟩ := h
    have hle := hrest.le
    refine ⟨hlt, ?_, hne, ih hrest fun n h1 h2 => hsel n (by omega) h2⟩
    rw [hitems]
    exact between_congr fun n h1 h2 => hsel n h1 (h2.trans hle)

end

end Cursor
