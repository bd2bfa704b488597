import Mathlib.Data.Prod.Lex
import Mathlib.Data.String.Basic
import MiniProgram.Path

/-!
# The order of paths

Lists of components are ordered like words: `precedes` is the lexicographic order of their keys, and
the key of a component is its kind together with its name. So paths are ordered linearly by their
components.
-/

namespace MiniProgram

namespace Component

/-- What a component is ordered by. Only names have a second part. -/
def key : Component → ℕ ×ₗ String
  | .normal name => toLex (3, name)
  | other => toLex (other.rank, "")

/-- Different components have different keys. -/
theorem key_injective : Function.Injective key := by
  intro a b h
  cases a <;> cases b <;> simp_all [key, rank]

/-- Components are ordered by their keys. -/
theorem before_iff (a b : Component) : a.before b = true ↔ a.key < b.key := by
  cases a <;> cases b <;> simp [before, key, rank, Prod.Lex.toLex_lt_toLex, -String.lt_iff_ltb]

end Component

namespace Path

/-- What a path is ordered by. -/
def key (path : Path) : List (ℕ ×ₗ String) :=
  path.components.map Component.key

/-- Lists of components are ordered by the keys of their components, from the first on. -/
theorem precedes_iff (a b : List Component) :
    precedes a b = true ↔ a.map Component.key < b.map Component.key := by
  induction a generalizing b with
  | nil => cases b <;> simp [precedes]
  | cons first rest ih =>
      cases b with
      | nil => simp [precedes]
      | cons other others =>
          rw [precedes, List.map_cons, List.map_cons, List.cons_lt_cons_iff]
          split
          · next heq => simp [heq, ih]
          · next hne => simp [Component.before_iff, Component.key_injective.eq_iff, hne]

/-- Paths have the same key if they have the same components. -/
theorem key_eq_iff {a b : Path} : a.key = b.key ↔ a.components = b.components :=
  (List.map_injective_iff.2 Component.key_injective).eq_iff

end Path

end MiniProgram
