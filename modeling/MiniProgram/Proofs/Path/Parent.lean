import MiniProgram.Proofs.Path.Join
import MiniProgram.Proofs.Text.Blank

/-!
# The path above a path

A path leads on by the names among its parts. The empty parts and the single dots between them are
silent. The path above a path goes as far as the last name (`Above`), and the paths further up are
the ones above it, until there is no name left (`parents_cases`).
-/

namespace MiniProgram.Path

variable {path base above : Path} {parts others : List (List Char)}

section Names

/-- Parts that are no names. -/
def Silent (parts : List (List Char)) : Prop :=
  ∀ part ∈ parts, isSilent part = true

/-- A path without double dots. -/
def Plain (path : Path) : Prop :=
  ['.', '.'] ∉ path.parts

/-- Whether a path is plain is decided by its parts. -/
instance (path : Path) : Decidable path.Plain :=
  inferInstanceAs (Decidable (['.', '.'] ∉ path.parts))

/-- The names among parts. -/
def words (parts : List (List Char)) : List String :=
  (parts.filter fun part => !isSilent part).map String.ofList

/-- Parts one behind the other have the names of both. -/
theorem words_append (parts others : List (List Char)) :
    words (parts ++ others) = words parts ++ words others := by
  simp [words]

/-- A part that is no name adds none. -/
theorem words_cons_of_silent {part : List Char} (h : isSilent part = true) :
    words (part :: parts) = words parts := by
  simp [words, h]

/-- A part that is a name comes first. -/
theorem words_cons_of_not_silent {part : List Char} (h : isSilent part = false) :
    words (part :: parts) = String.ofList part :: words parts := by
  simp [words, h]

/-- Silent parts have no names. -/
theorem Silent.words_eq (h : Silent parts) : words parts = [] := by
  simpa [words, Silent] using h

/-- A silent part is no double dot. -/
theorem Silent.dots_not_mem (h : Silent parts) : ['.', '.'] ∉ parts :=
  fun hmem => absurd (h _ hmem) (by decide)

/-- A file name is a name. -/
theorem isSilent_of_isFileName {word : String} (h : isFileName word = true) :
    isSilent word.toList = false := by
  have hword : word.toList ≠ [] ∧ word.toList ≠ ['.'] := by
    constructor <;> exact fun heq => by simp_all [isFileName, ← String.toList_inj]
  simp [isSilent, hword]

end Names

section Texts

/-- What parts spell out starts with what the first ones of them spell out. -/
theorem intercalate_prefix (hne : parts ≠ []) (others : List (List Char)) :
    ['/'].intercalate parts <+: ['/'].intercalate (parts ++ others) := by
  cases others with
  | nil => simp
  | cons part others =>
      refine ⟨'/' :: ['/'].intercalate (part :: others), ?_⟩
      induction parts with
      | nil => exact absurd rfl hne
      | cons first parts ih =>
          cases parts with
          | nil => simp [List.intercalate]
          | cons second parts =>
              have ih := ih (List.cons_ne_nil _ _)
              simp only [List.intercalate, List.cons_append, List.intersperse_cons_cons,
                List.flatten_cons, List.append_assoc] at ih ⊢
              rw [ih]

/-- The parts of a path with separators between them are its text. -/
theorem intercalate_parts (path : Path) : ['/'].intercalate path.parts = path.text.toList :=
  List.intercalate_splitOn '/'

/-- There is no separator in a part. -/
theorem separator_not_mem_of_mem_parts {part : List Char} (h : part ∈ path.parts) : '/' ∉ part :=
  Text.not_mem_of_mem_splitOn h

/-- The parts of a path that is written down are the parts it is written from, but for the root. -/
theorem parts_ofParts (hne : parts ≠ []) (hroot : parts ≠ [[]])
    (hparts : ∀ part ∈ parts, '/' ∉ part) : (ofParts parts).parts = parts := by
  have htext : (ofParts parts).text = String.ofList (['/'].intercalate parts) := by
    rw [ofParts.eq_def]
    split
    · exact absurd rfl hroot
    · rfl
  rw [Path.parts, htext, String.toList_ofList]
  exact List.splitOn_intercalate '/' hparts hne

/-- A path is absolute if its first part is empty and others follow. -/
theorem isAbsolute_iff : path.isAbsolute = true ↔ ∃ rest, path.parts = [] :: rest ∧ rest ≠ [] := by
  constructor
  · intro h
    obtain ⟨tail, htail⟩ := List.head?_eq_some_iff.1 (by simpa [isAbsolute] using h)
    refine ⟨tail.splitOn '/', ?_, List.splitOn_ne_nil _ _⟩
    rw [parts, htail, ← List.nil_append ('/' :: tail), List.splitOn_append_cons_self,
      List.splitOn_nil]
    rfl
  · rintro ⟨rest, hparts, hrest⟩
    obtain ⟨part, rest, rfl⟩ := List.exists_cons_of_ne_nil hrest
    have htext := intercalate_parts path
    rw [hparts] at htext
    simp [isAbsolute, ← htext, List.intercalate]

end Texts

section Parents

/-- `Above above path name` says that `above` is the path above one whose last name is `name`. Both
are the same in front of that name, up to silent parts. -/
structure Above (above path : Path) (name : List Char) : Prop where
  isAbsolute_eq : above.isAbsolute = path.isAbsolute
  text_prefix : above.text.toList <+: path.text.toList
  parts_eq : ∃ front gap behind others, path.parts = front ++ gap ++ name :: behind ∧
    above.parts = front ++ others ∧ Silent gap ∧ Silent behind ∧ Silent others
  named : isSilent name = false

/-- The last name of a path comes behind those of the path above it. -/
theorem Above.words_eq {name : List Char} (h : Above above path name) :
    words path.parts = words above.parts ++ [String.ofList name] := by
  obtain ⟨front, gap, behind, others, hparts, habove, hgap, hbehind, hothers⟩ := h.parts_eq
  rw [hparts, habove, words_append, words_append, words_append, hgap.words_eq, hothers.words_eq,
    words_cons_of_not_silent h.named, hbehind.words_eq]

/-- The path above a plain one is plain. -/
theorem Above.plain {name : List Char} (h : Above above path name) (hplain : path.Plain) :
    above.Plain := by
  obtain ⟨front, gap, behind, others, hparts, habove, -, -, hothers⟩ := h.parts_eq
  intro hmem
  rw [habove] at hmem
  rcases List.mem_append.1 hmem with hfront | hrest
  · exact hplain (hparts ▸ List.mem_append_left _ (List.mem_append_left _ hfront))
  · exact hothers.dots_not_mem hrest

/-- A path that ends with a dot, apart from separators. -/
def endsWithDot (path : Path) : Bool :=
  (path.parts.reverse.dropWhile (· = [])).head? == some ['.']

/-- A path does not end with a dot if its last part is a name. -/
theorem endsWithDot_eq_false (front : List (List Char)) {last : List Char}
    (h : path.parts = front ++ [last]) (hlast : isSilent last = false) :
    path.endsWithDot = false := by
  have hne : last ≠ [] ∧ last ≠ ['.'] := by simpa [isSilent] using hlast
  rw [endsWithDot, h, List.reverse_append, List.reverse_singleton, List.singleton_append,
    List.dropWhile_cons_of_neg (by simpa using hne.1)]
  simpa using hne.2

/-- Silent parts at the end do not count for the paths above. -/
theorem parentsOf_silent_append {first : List Char} {gap before : List (List Char)}
    (h : Silent gap) : parentsOf first (gap ++ before) = parentsOf first before := by
  induction gap with
  | nil => rfl
  | cons part gap ih =>
      obtain ⟨hpart, hgap⟩ := List.forall_mem_cons.1 h
      rw [List.cons_append, parentsOf, if_pos hpart, ih hgap]

/-- What stands above a path is found from its parts in reverse. -/
theorem parents_eq {first : List Char} {before : List (List Char)}
    (h : path.parts = first :: before.reverse) : path.parents = parentsOf first before := by
  rw [parents, h]
  dsimp only
  rw [List.reverse_reverse]

/-- A path that is written down has the parts it is written from, and the root one part more. -/
theorem parts_ofParts_eq (hne : parts ≠ []) (hparts : ∀ part ∈ parts, '/' ∉ part) :
    (ofParts parts).parts = parts ++ if parts = [[]] then [[]] else [] := by
  split
  · next hroot => rw [hroot]; decide
  · next hroot => rw [parts_ofParts hne hroot hparts, List.append_nil]

/-- Only the empty path is written as nothing. -/
theorem text_ofParts_ne_empty (hne : parts ≠ []) (hparts : ∀ part ∈ parts, '/' ∉ part) :
    (ofParts parts).text ≠ "" := by
  by_cases hroot : parts = [[]]
  · rw [hroot]
    decide
  · intro htext
    have habove := parts_ofParts hne hroot hparts
    rw [Path.parts, htext] at habove
    exact hroot habove.symm

/-- Cutting a path off in front of its last name leaves the path above it. -/
theorem above_ofParts {first name : List Char} {front gap behind : List (List Char)}
    (hparts : path.parts = first :: front ++ gap ++ name :: behind) (hgap : Silent gap)
    (hbehind : Silent behind) (hname : isSilent name = false) :
    Above (ofParts (first :: front)) path name := by
  have hmem : ∀ part ∈ first :: front, '/' ∉ part := fun part hpart =>
    separator_not_mem_of_mem_parts (hparts ▸ List.mem_append_left _ (List.mem_append_left _ hpart))
  have habove := parts_ofParts_eq (List.cons_ne_nil first front) hmem
  have hothers : Silent (if first :: front = [[]] then [[]] else []) := by
    split
    · exact List.forall_mem_singleton.2 rfl
    · exact fun _ => nofun
  have habsolute : path.isAbsolute = true ↔ first = [] := by
    rw [isAbsolute_iff, hparts]
    simp
  refine ⟨?_, ?_, ⟨first :: front, gap, behind, _, hparts, habove, hgap, hbehind, hothers⟩, hname⟩
  · rw [Bool.eq_iff_iff, habsolute, isAbsolute_iff, habove]
    cases front <;> simp
  · by_cases hroot : first :: front = [[]]
    · obtain ⟨rest, hrest⟩ := List.head?_eq_some_iff.1
        (by simpa [isAbsolute] using habsolute.2 (List.cons.inj hroot).1)
      rw [hroot, hrest]
      exact ⟨rest, rfl⟩
    · rw [if_neg hroot, List.append_nil] at habove
      rw [← intercalate_parts, ← intercalate_parts, habove, hparts, List.append_assoc]
      exact intercalate_prefix (List.cons_ne_nil _ _) _

/-- The paths above one that is written down. -/
theorem parents_ofParts {first : List Char} {before : List (List Char)}
    (hparts : ∀ part ∈ first :: before.reverse, '/' ∉ part) :
    (ofParts (first :: before.reverse)).parents = parentsOf first before := by
  have habove := parts_ofParts_eq (List.cons_ne_nil _ _) hparts
  split at habove
  · next hroot =>
      obtain ⟨rfl, hbefore⟩ := List.cons.inj hroot
      obtain rfl := List.reverse_eq_nil_iff.1 hbefore
      decide
  · exact parents_eq (by rw [habove, List.append_nil])

/-- A path that is written down ends with a name, unless it has none. -/
theorem endsWithDot_ofParts {first : List Char} {before : List (List Char)}
    (hparts : ∀ part ∈ first :: before.reverse, '/' ∉ part)
    (hlast : ∀ part ∈ before.head?, isSilent part = false) :
    (ofParts (first :: before.reverse)).endsWithDot = false ∨
      words (ofParts (first :: before.reverse)).parts = [] := by
  have habove := parts_ofParts_eq (List.cons_ne_nil _ _) hparts
  cases before with
  | nil =>
      cases hfirst : isSilent first with
      | true =>
          right
          rw [habove, List.reverse_nil, List.cons_append, words_cons_of_silent hfirst]
          split <;> rfl
      | false =>
          left
          rw [if_neg (by rintro ⟨⟩; cases hfirst), List.append_nil] at habove
          exact endsWithDot_eq_false [] habove hfirst
  | cons last before =>
      left
      rw [if_neg (by simp), List.append_nil] at habove
      refine endsWithDot_eq_false (first :: before.reverse) ?_ (hlast last rfl)
      rw [habove, List.reverse_cons, List.cons_append]

/-- Parts are silent ones and what follows them, which starts with a name. -/
theorem exists_silent_append (parts : List (List Char)) :
    ∃ gap, parts = gap ++ parts.dropWhile isSilent ∧ Silent gap ∧
      ∀ part ∈ (parts.dropWhile isSilent).head?, isSilent part = false := by
  refine ⟨parts.takeWhile isSilent, List.takeWhile_append_dropWhile.symm, fun part hpart =>
    List.all_eq_true.1 List.all_takeWhile part hpart, fun part hpart => ?_⟩
  have hhead := List.head?_dropWhile_not isSilent parts
  rw [hpart] at hhead
  simpa using hhead

/-- Of the paths above a path the nearest one is cut off in front of the last name, and the others
are those above it. A path with at most one name has none, or only the empty one. -/
theorem parents_cases (path : Path) :
    (words path.parts).length ≤ 1 ∧ (∀ above ∈ path.parents, above.text = "") ∨
      ∃ above name, path.parents = above :: above.parents ∧ Above above path name ∧
        above.text ≠ "" ∧ (above.endsWithDot = false ∨ words above.parts = []) := by
  obtain ⟨first, rest, hparts⟩ := List.exists_cons_of_ne_nil path.parts_ne_nil
  obtain ⟨behind, hrest, hbehind, hhead⟩ := exists_silent_append rest.reverse
  have hparents : path.parents = parentsOf first (rest.reverse.dropWhile isSilent) := by
    rw [parents_eq (by rw [hparts, List.reverse_reverse]), hrest, parentsOf_silent_append hbehind,
      ← hrest]
  cases hbefore : rest.reverse.dropWhile isSilent with
  | nil =>
      rw [hbefore, List.append_nil] at hrest
      have hsilent : Silent rest := fun part hpart =>
        hbehind part (hrest ▸ List.mem_reverse.2 hpart)
      refine .inl ⟨?_, fun above habove => ?_⟩
      · rw [hparts, ← List.singleton_append, words_append, hsilent.words_eq, List.append_nil]
        simpa [words] using List.length_filter_le _ [first]
      · rw [hparents, hbefore, parentsOf] at habove
        split at habove
        · cases habove
        · rw [List.mem_singleton.1 habove]
  | cons name before =>
      rw [hbefore] at hrest hhead
      have hname : isSilent name = false := hhead name rfl
      obtain ⟨gap, hgap, hsilent, hnamed⟩ := exists_silent_append before
      rw [hbefore, parentsOf, if_neg (by simp [hname])] at hparents
      generalize before.dropWhile isSilent = front at hgap hnamed hparents
      have hall : path.parts = first :: front.reverse ++ gap.reverse ++ name :: behind.reverse := by
        rw [hparts, ← List.reverse_reverse rest, hrest, hgap]
        simp
      have hmem : ∀ part ∈ first :: front.reverse, '/' ∉ part := fun part hpart =>
        separator_not_mem_of_mem_parts
          (hall ▸ List.mem_append_left _ (List.mem_append_left _ hpart))
      refine .inr ⟨_, name, ?_, above_ofParts hall ?_ ?_ hname,
        text_ofParts_ne_empty (List.cons_ne_nil _ _) hmem, endsWithDot_ofParts hmem hnamed⟩
      · rw [hparents, parents_ofParts hmem, hgap, parentsOf_silent_append hsilent]
      · exact fun part hpart => hsilent part (List.mem_reverse.1 hpart)
      · exact fun part hpart => hbehind part (List.mem_reverse.1 hpart)

end Parents

section FileNames

variable {word : String}

/-- A trailing separator of a base adds no name. -/
theorem words_stem (base : Path) : words base.stem = words base.parts := by
  have hempty : words [[]] = [] := by decide
  unfold stem
  split
  · next hbase =>
      have hparts : base.parts = [[]] := by simp [parts, hbase]
      rw [hparts, hempty]
      rfl
  · split
    · next htrailing =>
        obtain ⟨front, -, hparts⟩ := exists_of_hasTrailingSeparator htrailing
        rw [hparts, List.dropLast_concat, words_append, hempty, List.append_nil]
    · rfl

/-- The parts of a file in a directory are those of the directory and the name. -/
theorem parts_div (base : Path) (h : isFileName word = true) :
    (base / word).parts = base.stem ++ [word.toList] :=
  (parts_join base (isAbsolute_of_isFileName h)).trans (by rw [parts_of_isFileName h])

/-- A file name adds itself to the names of a path. -/
theorem words_div (base : Path) (h : isFileName word = true) :
    words (base / word).parts = words base.parts ++ [word] := by
  rw [parts_div base h, words_append, words_stem,
    words_cons_of_not_silent (isSilent_of_isFileName h), String.ofList_toList]
  rfl

/-- The path of a file in a directory is plain if the one of the directory is. -/
theorem Plain.div {base : Path} (hplain : base.Plain) (h : isFileName word = true) :
    (base / word).Plain := by
  intro hmem
  rw [parts_div base h] at hmem
  rcases List.mem_append.1 hmem with hstem | hword
  · refine hplain ?_
    unfold stem at hstem
    split at hstem
    · cases hstem
    · split at hstem
      · exact List.dropLast_subset _ hstem
      · exact hstem
  · have hdots : word = ".." := by
      rw [← String.toList_inj, ← List.mem_singleton.1 hword]
      rfl
    simp [isFileName, hdots] at h

/-- The path above a file that is called by a joined path goes as far as the base. It is empty only
if there is no name in the base. -/
theorem parent_cases (base : Path) (h : isFileName word = true) :
    ((base / word).parent?.getD ⟨""⟩).text = "" ∧ words base.parts = [] ∨
      ∃ above, (base / word).parent?.getD ⟨""⟩ = above ∧ above.text ≠ "" ∧
        Above above (base / word) word.toList ∧ above.isAbsolute = base.isAbsolute ∧
        words above.parts = words base.parts ∧
        (above.endsWithDot = false ∨ words above.parts = []) := by
  have hwords := words_div base h
  rcases (base / word).parents_cases with
    ⟨hshort, hempty⟩ | ⟨above, name, hparents, habove, hne, hend⟩
  · left
    rw [hwords, List.length_append] at hshort
    refine ⟨?_, List.length_eq_zero_iff.1 (by simpa using hshort)⟩
    cases hparent : (base / word).parent? with
    | none => rfl
    | some parent => exact hempty parent (List.mem_of_head? hparent)
  · right
    obtain ⟨hsame, hname⟩ := List.append_inj' (hwords.symm.trans habove.words_eq) rfl
    have hname : word.toList = name := by
      rw [List.singleton_inj.1 hname, String.toList_ofList]
    refine ⟨above, ?_, hne, hname ▸ habove, ?_, hsame.symm, hend⟩
    · rw [parent?, hparents]
      rfl
    · rw [habove.isAbsolute_eq, isAbsolute_div base h]

end FileNames

end MiniProgram.Path
