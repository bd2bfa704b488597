import Mathlib.Data.List.Forall2

/-!
# Outcomes that may be faults

When a computation that stops at its first fault succeeds, all of its parts did
(`except_bind_eq_ok_iff`, `mapM_eq_ok_iff`).
-/

namespace MiniProgram

variable {ε α β : Type}

/-- A sequence succeeds if its first part does and what follows on its answer does. -/
theorem except_bind_eq_ok_iff {x : Except ε α} {f : α → Except ε β} {b : β} :
    x >>= f = .ok b ↔ ∃ a, x = .ok a ∧ f a = .ok b := by
  cases x with
  | error e => exact ⟨nofun, nofun⟩
  | ok a => exact ⟨fun h => ⟨a, rfl, h⟩, fun ⟨_, ha, h⟩ => Except.ok.inj ha ▸ h⟩

/-- What does not succeed fails. -/
theorem exists_eq_error_iff {x : Except ε α} : (∃ e, x = .error e) ↔ ¬ ∃ a, x = .ok a := by
  cases x <;> simp

/-- A sequence fails if its first part does, or else what follows on its answer. -/
theorem except_bind_eq_error_iff {x : Except ε α} {f : α → Except ε β} {e : ε} :
    x >>= f = .error e ↔ x = .error e ∨ ∃ a, x = .ok a ∧ f a = .error e := by
  cases x with
  | error e' => simp [bind, Except.bind]
  | ok a => simp [bind, Except.bind]

/-- Going through a list succeeds if it does for every element, and then it has all results. -/
theorem mapM_eq_ok_iff {f : α → Except ε β} {items : List α} {results : List β} :
    items.mapM f = .ok results ↔ List.Forall₂ (fun a b => f a = .ok b) items results := by
  induction items generalizing results with
  | nil =>
      rw [List.mapM_nil, List.forall₂_nil_left_iff]
      exact ⟨fun h => (Except.ok.inj h).symm, fun h => congrArg Except.ok h.symm⟩
  | cons item items ih =>
      simp only [List.mapM_cons, except_bind_eq_ok_iff, ih, List.forall₂_cons_left_iff]
      constructor
      · rintro ⟨first, hfirst, rest, hrest, hresults⟩
        exact ⟨first, rest, hfirst, hrest, (Except.ok.inj hresults).symm⟩
      · rintro ⟨first, rest, hfirst, hrest, rfl⟩
        exact ⟨first, hfirst, rest, hrest, rfl⟩

/-- Which elements correspond counts only for those of the first list. -/
theorem forall₂_congr_left {R S : α → β → Prop} {items : List α} {results : List β}
    (h : ∀ a ∈ items, ∀ b, R a b ↔ S a b) :
    List.Forall₂ R items results ↔ List.Forall₂ S items results := by
  induction items generalizing results with
  | nil => simp only [List.forall₂_nil_left_iff]
  | cons item items ih =>
      obtain ⟨hitem, hitems⟩ := List.forall_mem_cons.1 h
      simp only [List.forall₂_cons_left_iff, hitem, ih hitems]

/-- If a list is mapped without a failure, then so is each of its elements. -/
theorem exists_of_mem_mapM {f : α → Except ε β} {items : List α} {results : List β} {item : α}
    (h : items.mapM f = .ok results) (hitem : item ∈ items) : ∃ result, f item = .ok result := by
  have hall := mapM_eq_ok_iff.1 h
  clear h
  induction hall with
  | nil => cases hitem
  | cons hfirst _ ih =>
      rcases List.mem_cons.1 hitem with rfl | hitem
      · exact ⟨_, hfirst⟩
      · exact ih hitem

/-- Going through a list fails as the first element does that fails. -/
theorem mapM_eq_error_iff {f : α → Except ε β} {items : List α} {e : ε} :
    items.mapM f = .error e ↔ ∃ before item after, items = before ++ item :: after ∧
      (∀ earlier ∈ before, ∃ b, f earlier = .ok b) ∧ f item = .error e := by
  induction items with
  | nil => exact ⟨nofun, by simp⟩
  | cons first items ih =>
      have hlast : ∀ b : β, (items.mapM f >>= fun rest => pure (b :: rest)) = .error e ↔
          items.mapM f = .error e := fun b => by simp [except_bind_eq_error_iff, pure, Except.pure]
      rw [List.mapM_cons, except_bind_eq_error_iff]
      simp only [hlast, ih]
      constructor
      · rintro (hfirst | ⟨b, hb, before, item, after, rfl, hbefore, hitem⟩)
        · exact ⟨[], first, items, rfl, nofun, hfirst⟩
        · exact ⟨first :: before, item, after, rfl,
            List.forall_mem_cons.2 ⟨⟨b, hb⟩, hbefore⟩, hitem⟩
      · rintro ⟨_ | ⟨first', before⟩, item, after, heq, hbefore, hitem⟩
        · obtain ⟨rfl, -⟩ := List.cons.inj heq
          exact .inl hitem
        · obtain ⟨rfl, rfl⟩ := List.cons.inj heq
          obtain ⟨⟨b, hb⟩, hbefore⟩ := List.forall_mem_cons.1 hbefore
          exact .inr ⟨b, hb, before, item, after, rfl, hbefore, hitem⟩

/-- Going through a list depends only on what becomes of its elements. -/
theorem mapM_congr_left {f g : α → Except ε β} {items : List α}
    (h : ∀ item ∈ items, f item = g item) : items.mapM f = items.mapM g := by
  induction items with
  | nil => rfl
  | cons item items ih =>
      obtain ⟨hitem, hitems⟩ := List.forall_mem_cons.1 h
      rw [List.mapM_cons, List.mapM_cons, hitem, ih hitems]

/-- If what becomes of each element is the same twice, or two faults that are related, then going
through a list gives the same or two such faults. -/
theorem mapM_congr_or {f g : α → Except ε β} {related : ε → ε → Prop} {items : List α}
    (h : ∀ item ∈ items, g item = f item ∨
      ∃ e e', related e e' ∧ f item = .error e ∧ g item = .error e') :
    items.mapM g = items.mapM f ∨
      ∃ e e', related e e' ∧ items.mapM f = .error e ∧ items.mapM g = .error e' := by
  induction items with
  | nil => exact .inl rfl
  | cons item items ih =>
      obtain ⟨hitem, hitems⟩ := List.forall_mem_cons.1 h
      simp only [List.mapM_cons]
      rcases hitem with hsame | ⟨e, e', hrelated, hf, hg⟩
      · rw [hsame]
        cases f item with
        | error e => exact .inl rfl
        | ok b =>
            rcases ih hitems with hrest | ⟨e, e', hrelated, hf, hg⟩
            · exact .inl (by rw [hrest])
            · exact .inr ⟨e, e', hrelated, by rw [hf]; rfl, by rw [hg]; rfl⟩
      · exact .inr ⟨e, e', hrelated, by rw [hf]; rfl, by rw [hg]; rfl⟩

end MiniProgram
