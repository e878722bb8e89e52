/-
# CloudEtcd.Lib.GoMap — finite maps read with a zero value.

Mathlib's association lists, read the way Go reads a map: a missing key gives the zero value.
Bulk assignment (`setAll`) is the loop that stores one value under every key of a list.
-/
import Mathlib.Data.List.AList
import Mathlib.Tactic

/-- A finite map from `α` to `β`. -/
abbrev GoMap (α β : Type*) := AList fun _ : α => β

namespace GoMap

variable {α β : Type*} [DecidableEq α]

/-- `m[k]` with `zero` for a missing key. -/
def getD (m : GoMap α β) (k : α) (zero : β) : β := (m.lookup k).getD zero

/-- Store `v` under every key of the list, in order. -/
def setAll (m : GoMap α β) (ks : List α) (v : β) : GoMap α β :=
  ks.foldl (fun m k => m.insert k v) m

theorem lookup_setAll (m : GoMap α β) (ks : List α) (v : β) (k : α) :
    (m.setAll ks v).lookup k = if k ∈ ks then some v else m.lookup k := by
  induction ks generalizing m with
  | nil => simp [setAll]
  | cons a ks ih =>
    rw [setAll, List.foldl_cons, ← setAll, ih]
    by_cases hk : k ∈ ks
    · simp [hk]
    · by_cases ha : k = a
      · subst ha
        simp [hk, AList.lookup_insert]
      · simp [hk, ha, AList.lookup_insert_ne ha]

end GoMap
