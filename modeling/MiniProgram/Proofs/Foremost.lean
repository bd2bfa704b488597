import Mathlib.Data.List.Induction
import Mathlib.Order.Lattice

/-!
# The first of the greatest

Of elements that are ordered by a measure, the foremost one has the greatest measure and stands in
front of all others that have it. Keeping the better one of two, element after element, finds it
(`foldl_foremost`), if the later one has to be strictly better.
-/

namespace MiniProgram

variable {α β : Type} [LinearOrder β] {measure : α → β}

/-- `Foremost measure items chosen` says that `chosen` has the greatest measure, and that it is the
first one that has. -/
def Foremost (measure : α → β) (items : List α) (chosen : α) : Prop :=
  ∃ before behind, items = before ++ chosen :: behind ∧
    (∀ other ∈ before, measure other < measure chosen) ∧
    ∀ other ∈ behind, measure other ≤ measure chosen

/-- Only one element is foremost. -/
theorem Foremost.unique {items : List α} {chosen other : α} (h : Foremost measure items chosen)
    (h' : Foremost measure items other) : chosen = other := by
  -- where two elements differ, the later one is strictly greater and yet no greater
  have hsame : ∀ {first second : α} {middle behind behind' : List α},
      first :: behind = middle ++ second :: behind' →
      (∀ x ∈ behind, measure x ≤ measure first) → (∀ x ∈ middle, measure x < measure second) →
      first = second := by
    intro first second middle behind behind' heq hbehind hmiddle
    cases middle with
    | nil => exact (List.cons.inj heq).1
    | cons head middle =>
        obtain ⟨rfl, rfl⟩ := List.cons.inj heq
        exact absurd (hbehind second (by simp)) (not_le.2 (hmiddle first List.mem_cons_self))
  obtain ⟨before, behind, rfl, hbefore, hbehind⟩ := h
  obtain ⟨before', behind', heq, hbefore', hbehind'⟩ := h'
  rcases List.append_eq_append_iff.1 heq with ⟨middle, rfl, hmiddle⟩ | ⟨middle, rfl, hmiddle⟩
  · exact hsame hmiddle hbehind fun x hx => hbefore' x (List.mem_append_right _ hx)
  · exact (hsame hmiddle hbehind' fun x hx => hbefore x (List.mem_append_right _ hx)).symm

/-- A single element is foremost. -/
theorem foremost_singleton (item : α) : Foremost measure [item] item :=
  ⟨[], [], rfl, by simp, by simp⟩

/-- A last element that is greater than the foremost one takes its place. -/
theorem Foremost.replace {items : List α} {chosen next : α} (h : Foremost measure items chosen)
    (hlt : measure chosen < measure next) : Foremost measure (items ++ [next]) next := by
  obtain ⟨before, behind, rfl, hbefore, hbehind⟩ := h
  refine ⟨before ++ chosen :: behind, [], by simp, ?_, by simp⟩
  rw [List.forall_mem_append, List.forall_mem_cons]
  exact ⟨fun other hother => lt_trans (hbefore other hother) hlt, hlt,
    fun other hother => lt_of_le_of_lt (hbehind other hother) hlt⟩

/-- A last element that is no greater than the foremost one leaves it in place. -/
theorem Foremost.keep {items : List α} {chosen next : α} (h : Foremost measure items chosen)
    (hle : measure next ≤ measure chosen) : Foremost measure (items ++ [next]) chosen := by
  obtain ⟨before, behind, rfl, hbefore, hbehind⟩ := h
  refine ⟨before, behind ++ [next], by simp, hbefore, ?_⟩
  rw [List.forall_mem_append, List.forall_mem_singleton]
  exact ⟨hbehind, hle⟩

/-- Keeping the better one of two finds the foremost element, unless there is none. -/
theorem foldl_foremost {better : Option α → α → Option α}
    (hnone : ∀ next, better none next = some next)
    (hreplace : ∀ old next, measure old < measure next → better (some old) next = some next)
    (hkeep : ∀ old next, measure next ≤ measure old → better (some old) next = some old)
    (items : List α) :
    items = [] ∧ items.foldl better none = none ∨
      ∃ chosen, items.foldl better none = some chosen ∧ Foremost measure items chosen := by
  induction items using List.reverseRecOn with
  | nil => exact .inl ⟨rfl, rfl⟩
  | append_singleton items next ih =>
      refine .inr ?_
      rw [List.foldl_append, List.foldl_cons, List.foldl_nil]
      rcases ih with ⟨rfl, hbest⟩ | ⟨chosen, hbest, hforemost⟩
      · exact ⟨next, by rw [hbest, hnone], foremost_singleton next⟩
      · rw [hbest]
        rcases lt_or_ge (measure chosen) (measure next) with hlt | hle
        · exact ⟨next, hreplace chosen next hlt, hforemost.replace hlt⟩
        · exact ⟨chosen, hkeep chosen next hle, hforemost.keep hle⟩

end MiniProgram
