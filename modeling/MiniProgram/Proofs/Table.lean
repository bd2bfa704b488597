import Mathlib.Data.List.Induction
import Mathlib.Data.List.Perm.Basic
import Mathlib.Data.String.Basic
import MiniProgram.Table

/-!
# The keys and the entries of tables

A table that entries were put into holds their keys, each of them once and in increasing order
(`keys_ofEntries`). If the entries have distinct keys then the table holds all of them
(`mem_ofEntries`), and it holds nothing else to tell it from another table (`eq_of_mem_iff`).
-/

namespace MiniProgram.Table

variable {α : Type} {table : Table α} {key other : String} {value : α}

/-- Setting a key adds it to the keys. -/
theorem mem_keys_put : other ∈ (table.put key value).keys ↔ other = key ∨ other ∈ table.keys := by
  induction table with
  | nil => simp [put, keys]
  | cons entry rest ih =>
      rw [put]
      split
      · simp [keys]
      · split
        · next heq => simp [keys, heq]
        · have hcons : other ∈ (put rest key value).keys ↔ other = key ∨ other ∈ keys rest := ih
          simp only [keys, List.map_cons, List.mem_cons] at hcons ⊢
          rw [hcons, or_left_comm]

/-- Setting a key keeps the keys in order. -/
theorem pairwise_keys_put (h : table.keys.Pairwise (· < ·)) :
    (table.put key value).keys.Pairwise (· < ·) := by
  induction table with
  | nil => simp [put, keys]
  | cons entry rest ih =>
      obtain ⟨hentry, hrest⟩ := List.pairwise_cons.1 h
      rw [put]
      split
      · next hlt =>
          refine List.pairwise_cons.2 ⟨fun other hother => ?_, h⟩
          rcases List.mem_cons.1 hother with rfl | hother
          · exact hlt
          · exact hlt.trans (hentry other hother)
      · next hle =>
          split
          · next heq => exact List.pairwise_cons.2 ⟨heq ▸ hentry, hrest⟩
          · next hne =>
              refine List.pairwise_cons.2 ⟨fun other hother => ?_, ih hrest⟩
              rcases mem_keys_put.1 hother with rfl | hother
              · exact lt_of_le_of_ne (not_lt.1 hle) (Ne.symm hne)
              · exact hentry other hother

/-- The keys of a table of entries are those of the entries, in increasing order. -/
theorem keys_ofEntries (entries : List (String × α)) :
    (ofEntries entries).keys.Pairwise (· < ·) ∧
      ∀ key, key ∈ (ofEntries entries).keys ↔ key ∈ entries.map Prod.fst := by
  induction entries using List.reverseRecOn with
  | nil => simp [ofEntries, keys]
  | append_singleton entries entry ih =>
      have hput : ofEntries (entries ++ [entry]) = (ofEntries entries).put entry.1 entry.2 := by
        simp [ofEntries]
      rw [hput]
      refine ⟨pairwise_keys_put ih.1, fun key => ?_⟩
      rw [mem_keys_put, ih.2, List.map_append, List.mem_append, List.map_singleton,
        List.mem_singleton, or_comm]

section Entries

variable {entries : List (String × α)} {entry : String × α} {table table' : Table α}

/-- Setting a new key adds an entry and keeps the others. -/
theorem mem_put_of_not_mem {key : String} {value : α} (h : key ∉ table.keys) :
    entry ∈ table.put key value ↔ entry = (key, value) ∨ entry ∈ table := by
  induction table with
  | nil => simp [put]
  | cons first rest ih =>
      obtain ⟨hfirst, hrest⟩ : key ≠ first.1 ∧ key ∉ keys rest := by simpa [keys] using h
      rw [put]
      split
      · simp
      · rw [List.mem_cons, ih hrest, List.mem_cons, or_left_comm]

/-- Entries with distinct keys are all kept in their table. -/
theorem mem_ofEntries (h : (entries.map Prod.fst).Nodup) :
    entry ∈ ofEntries entries ↔ entry ∈ entries := by
  induction entries using List.reverseRecOn with
  | nil => simp [ofEntries]
  | append_singleton entries last ih =>
      have hput : ofEntries (entries ++ [last]) = (ofEntries entries).put last.1 last.2 := by
        simp [ofEntries]
      rw [List.map_append, List.nodup_append] at h
      obtain ⟨hentries, -, hlast⟩ := h
      have hnew : last.1 ∉ (ofEntries entries).keys := fun hmem =>
        hlast _ ((keys_ofEntries entries).2 _ |>.1 hmem) last.1 (by simp) rfl
      rw [hput, mem_put_of_not_mem hnew, ih hentries, List.mem_append, List.mem_singleton, or_comm]

/-- A table is determined by its entries. -/
theorem eq_of_mem_iff (h : table.keys.Pairwise (· < ·)) (h' : table'.keys.Pairwise (· < ·))
    (hmem : ∀ entry, entry ∈ table ↔ entry ∈ table') : table = table' := by
  have hlt : table.Pairwise fun a b => a.1 < b.1 := List.pairwise_map.1 h
  have hlt' : table'.Pairwise fun a b => a.1 < b.1 := List.pairwise_map.1 h'
  have hperm : table.Perm table' :=
    (List.perm_ext_iff_of_nodup (hlt.imp fun hab heq => hab.ne (congrArg Prod.fst heq))
      (hlt'.imp fun hab heq => hab.ne (congrArg Prod.fst heq))).2 hmem
  exact hperm.eq_of_pairwise (fun a b _ _ hab hba => absurd hab hba.asymm) hlt hlt'

/-- Putting the entries of a table into a table gives the same table. -/
theorem ofEntries_eq_self (h : table.keys.Pairwise (· < ·)) : ofEntries table = table :=
  eq_of_mem_iff (keys_ofEntries table).1 h fun _ => mem_ofEntries (h.imp ne_of_lt)

end Entries

end MiniProgram.Table
