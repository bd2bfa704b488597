import Mathlib.Data.List.Basic
import MiniProgram.Path

/-!
# Joined paths

Joining puts the parts of a path behind those of another one (`parts_join`), and therefore its
components behind the components of the other one (`components_join`). A file name adds one
component, so paths that are made of file names can be told apart by their components.
-/

namespace MiniProgram.Path

variable {base name path : Path}

/-- The parts of a base that stand in front of what is joined to it. A trailing separator does not
make an empty part. -/
def stem (base : Path) : List (List Char) :=
  if base.text = "" then []
  else if base.hasTrailingSeparator then base.parts.dropLast
  else base.parts

/-- The components that parts behind the first one stand for. -/
def spelled (parts : List (List Char)) : List Component :=
  (parts.filter fun part => !isSilent part).map component

section Parts

/-- Every path has a part. -/
theorem parts_ne_nil (path : Path) : path.parts ≠ [] :=
  List.splitOn_ne_nil _ _

/-- A text is empty if it has no characters. -/
theorem text_ne_empty_iff : path.text ≠ "" ↔ path.text.toList ≠ [] := by
  simp

/-- A path with a trailing separator is a path with one more part, which is empty. -/
theorem exists_of_hasTrailingSeparator (h : path.hasTrailingSeparator = true) :
    ∃ front, path.text.toList = front ++ ['/'] ∧ path.parts = front.splitOn '/' ++ [[]] := by
  obtain ⟨front, hfront⟩ := List.getLast?_eq_some_iff.1 (by simpa [hasTrailingSeparator] using h)
  exact ⟨front, hfront, by rw [parts, hfront, List.splitOn_append_cons_self, List.splitOn_nil]⟩

/-- Without a trailing separator the last part is not empty. -/
theorem exists_last_part (hne : path.text ≠ "") (h : path.hasTrailingSeparator = false) :
    ∃ before last, path.parts = before ++ [last] ∧ last ≠ [] := by
  by_cases hmem : '/' ∈ path.text.toList
  · obtain ⟨back, front, hsplit, hback⟩ := List.eq_append_cons_of_mem (List.mem_reverse.2 hmem)
    have htext : path.text.toList = front.reverse ++ '/' :: back.reverse := by
      simpa using congrArg List.reverse hsplit
    have hlast : back.reverse.splitOn '/' = [back.reverse] :=
      List.splitOn_eq_singleton (by simpa using hback)
    refine ⟨front.reverse.splitOn '/', back.reverse, ?_, ?_⟩
    · rw [parts, htext, List.splitOn_append_cons_self, hlast]
    · intro hnil
      simp [hasTrailingSeparator, htext, hnil] at h
  · exact ⟨[], path.text.toList, by rw [parts, List.splitOn_eq_singleton hmem, List.nil_append],
      text_ne_empty_iff.1 hne⟩

end Parts

section Joining

/-- A path from the root takes the place of its base. -/
theorem join_of_isAbsolute (base : Path) (h : name.isAbsolute = true) : base.join name = name := by
  simp [join, h]

/-- An empty base adds nothing to a path. -/
theorem join_of_empty (hbase : base.text = "") : base.join name = name := by
  simp [join, hbase]

/-- A path that was joined to a base starts at the root if the base does. -/
theorem isAbsolute_join (hbase : base.text ≠ "") (h : name.isAbsolute = false) :
    (base.join name).isAbsolute = base.isAbsolute := by
  have hhead : ∀ rest, (base.text.toList ++ rest).head? = base.text.toList.head? := fun rest =>
    List.head?_append_of_ne_nil _ (text_ne_empty_iff.1 hbase)
  rw [join, if_neg (by simp [h])]
  split <;> simp only [isAbsolute, String.toList_append, List.append_assoc, hhead]

/-- The parts of a joined path are those of the base and those of what is joined to it. -/
theorem parts_join (base : Path) (h : name.isAbsolute = false) :
    (base.join name).parts = base.stem ++ name.parts := by
  by_cases hempty : base.text = ""
  · rw [join_of_empty hempty, stem, if_pos hempty, List.nil_append]
  · by_cases htrailing : base.hasTrailingSeparator = true
    · obtain ⟨front, hfront, hparts⟩ := exists_of_hasTrailingSeparator htrailing
      have hstem : base.stem = front.splitOn '/' := by
        rw [stem, if_neg hempty, if_pos htrailing, hparts, List.dropLast_concat]
      have htext : (base.join name).text.toList = front ++ '/' :: name.text.toList := by
        simp [join, h, htrailing, hfront]
      rw [hstem, parts, htext, List.splitOn_append_cons_self, parts]
    · have htext : (base.join name).text.toList = base.text.toList ++ '/' :: name.text.toList := by
        simp [join, h, hempty, htrailing]
      rw [stem, if_neg hempty, if_neg htrailing, parts, htext, List.splitOn_append_cons_self,
        parts, parts]

end Joining

section Components

/-- What the start of a path stands for besides its parts: the root, or a dot in front. -/
def lead (path : Path) : List Component :=
  if path.isAbsolute then [.root] else if path.parts.head? = some ['.'] then [.current] else []

/-- Parts one behind the other stand for what they stand for by themselves. -/
theorem spelled_append (parts others : List (List Char)) :
    spelled (parts ++ others) = spelled parts ++ spelled others := by
  simp [spelled]

/-- The components of a path are what it starts with and what its parts spell. -/
theorem components_eq (path : Path) : path.components = path.lead ++ spelled path.parts := by
  cases hparts : path.parts with
  | nil => exact absurd hparts path.parts_ne_nil
  | cons first rest =>
      have habsolute : path.isAbsolute = true → first = [] := by
        intro h
        obtain ⟨back, hback⟩ := List.head?_eq_some_iff.1 (by simpa [isAbsolute] using h)
        rw [parts, hback, List.splitOn_cons_eq_if_modifyHead] at hparts
        simp only [beq_self_eq_true, if_true, List.cons.injEq] at hparts
        exact hparts.1.symm
      grind [components, lead, spelled, isSilent]

/-- A trailing separator of a base stands for nothing. -/
theorem spelled_stem (hbase : base.text ≠ "") : spelled base.stem = spelled base.parts := by
  by_cases htrailing : base.hasTrailingSeparator = true
  · obtain ⟨front, -, hparts⟩ := exists_of_hasTrailingSeparator htrailing
    rw [stem, if_neg hbase, if_pos htrailing, hparts, List.dropLast_concat, spelled_append]
    simp [spelled, isSilent]
  · rw [stem, if_neg hbase, if_neg htrailing]

/-- A path that was joined to a base starts with the first part of the base. -/
theorem head?_parts_join (hbase : base.text ≠ "") (h : name.isAbsolute = false) :
    (base.join name).parts.head? = base.parts.head? := by
  rw [parts_join base h]
  by_cases htrailing : base.hasTrailingSeparator = true
  · obtain ⟨front, -, hparts⟩ := exists_of_hasTrailingSeparator htrailing
    have hne := List.splitOn_ne_nil '/' front
    rw [stem, if_neg hbase, if_pos htrailing, hparts, List.dropLast_concat,
      List.head?_append_of_ne_nil _ hne, List.head?_append_of_ne_nil _ hne]
  · rw [stem, if_neg hbase, if_neg htrailing, List.head?_append_of_ne_nil _ base.parts_ne_nil]

/-- The components of a path that is joined to another one stand behind those of the other one. A
dot at its start counts only where nothing stands in front. -/
theorem components_join (h : name.isAbsolute = false)
    (hdot : base.text = "" → name.parts.head? ≠ some ['.']) :
    (base.join name).components = base.components ++ spelled name.parts := by
  by_cases hbase : base.text = ""
  · have hnone : base.components = [] := by
      simp [components_eq, lead, spelled, parts, isAbsolute, hbase, isSilent]
    rw [join_of_empty hbase, hnone, components_eq, lead, if_neg (by simp [h]), if_neg (hdot hbase)]
  · have hlead : (base.join name).lead = base.lead := by
      rw [lead, lead, isAbsolute_join hbase h, head?_parts_join hbase h]
    rw [components_eq, components_eq base, hlead, parts_join base h, spelled_append,
      spelled_stem hbase, List.append_assoc]

end Components

section FileNames

/-- A name that an entry of a directory can have. -/
def isFileName (name : String) : Bool :=
  name ≠ "" && name ≠ "." && name ≠ ".." && !name.toList.contains '/'

variable {word : String}

/-- A name is its only part. -/
theorem parts_of_isFileName (h : isFileName word = true) : (⟨word⟩ : Path).parts = [word.toList] :=
  List.splitOn_eq_singleton (by simp_all [isFileName])

/-- A name does not start at the root. -/
theorem isAbsolute_of_isFileName (h : isFileName word = true) :
    (⟨word⟩ : Path).isAbsolute = false := by
  have hmem : '/' ∉ word.toList := by simp_all [isFileName]
  simpa [isAbsolute] using fun hhead => hmem (List.mem_of_head? hhead)

/-- The path of a file in a directory starts at the root if the one of the directory does. -/
theorem isAbsolute_div (base : Path) (h : isFileName word = true) :
    (base / word).isAbsolute = base.isAbsolute := by
  by_cases hbase : base.text = ""
  · refine (congrArg isAbsolute (join_of_empty hbase)).trans ?_
    rw [isAbsolute_of_isFileName h]
    simp [isAbsolute, hbase]
  · exact isAbsolute_join hbase (isAbsolute_of_isFileName h)

/-- A file name adds itself to the components of a path. -/
theorem components_div (base : Path) (h : isFileName word = true) :
    (base / word).components = base.components ++ [.normal word] := by
  have hword : word ≠ "" ∧ word.toList ≠ ['.'] ∧ word.toList ≠ ['.', '.'] := by
    refine ⟨by simp_all [isFileName], ?_, ?_⟩ <;>
      exact fun heq => by simp_all [isFileName, ← String.toList_inj]
  have hspelled : spelled [word.toList] = [.normal word] := by
    simp [spelled, isSilent, component, hword]
  refine (components_join (isAbsolute_of_isFileName h) fun _ => ?_).trans ?_
  · simp [parts_of_isFileName h, hword]
  · rw [parts_of_isFileName h, hspelled]

/-- The path of a file in a directory is not empty. -/
theorem text_div_ne_empty (base : Path) (h : isFileName word = true) : (base / word).text ≠ "" := by
  intro hempty
  have hnone : (base / word).components = [] := by
    simp [components_eq, lead, spelled, parts, isAbsolute, hempty, isSilent]
  simp [components_div base h] at hnone

/-- The path that some names lead to, one after the other. -/
def descend (base : Path) (words : List String) : Path :=
  words.foldl (· / ·) base

/-- Names that are gone down add components behind those of the base. -/
theorem components_descend {words : List String} (h : ∀ word ∈ words, isFileName word = true)
    (base : Path) :
    (base.descend words).components = base.components ++ words.map .normal := by
  induction words generalizing base with
  | nil => simp [descend]
  | cons word words ih =>
      obtain ⟨hword, hwords⟩ := List.forall_mem_cons.1 h
      have hcons : base.descend (word :: words) = (base / word).descend words := rfl
      rw [hcons, ih hwords, components_div base hword, List.append_assoc]
      rfl

end FileNames

end MiniProgram.Path
