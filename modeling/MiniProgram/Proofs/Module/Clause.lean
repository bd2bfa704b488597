import MiniProgram.Proofs.Bytes.Clause
import MiniProgram.Proofs.Source.Token
import MiniProgram.Source.Import

/-!
# Import clauses

An import clause binds a default name, a namespace, the names of a list in braces, or a default name
and one of the others. `Clause.tokens` writes a clause as words and marks. Read
`localNamesAt_inverts` first: whatever blanks stand between its tokens, the bound names of a clause
are read off its text. The clause is cut into parts at its commas, and each part is read alone
(`clauseNames_of_parts`, `clauseNames_of_list`).
-/

namespace MiniProgram.Module

open Bytes (namesOf localNamesAt localNamesAt_eq)
open Source Text
open Source.Token (word mark)

/-- An entry of a list in braces. -/
inductive Specifier where
  | plain (name : List Char)
  | renamed (original name : List Char)
  deriving DecidableEq, Repr

/-- What an import binds besides a default name. -/
inductive Bindings where
  | all (name : List Char)
  | list (specifiers : List Specifier) (trailing : Bool)
  deriving DecidableEq, Repr

/-- An import clause. -/
inductive Clause where
  | default (name : List Char)
  | bindings (rest : Bindings)
  | both (name : List Char) (rest : Bindings)
  deriving DecidableEq, Repr

/-- The word `as`. -/
def asWord : List Char :=
  ['a', 's']

/-- The words of an entry. -/
def Specifier.words : Specifier → List (List Char)
  | .plain name => [name]
  | .renamed original name => [original, asWord, name]

/-- The name that an entry binds. -/
def Specifier.name : Specifier → List Char
  | .plain name => name
  | .renamed _ name => name

/-- The tokens between the commas of a list. Behind a trailing comma, and in an empty list, stands
an empty part. -/
def parts (specifiers : List Specifier) (trailing : Bool) : List (List Token) :=
  specifiers.map (fun specifier => specifier.words.map word) ++
    if trailing ∨ specifiers = [] then [[]] else []

/-- The tokens of what an import binds besides a default name. -/
def Bindings.tokens : Bindings → List Token
  | .all name => [mark '*', word asWord, word name]
  | .list specifiers trailing =>
      mark '{' :: ([mark ','].intercalate (parts specifiers trailing) ++ [mark '}'])

/-- The names that these tokens bind. -/
def Bindings.names : Bindings → List (List Char)
  | .all name => [name]
  | .list specifiers _ => specifiers.map Specifier.name

/-- The tokens of a clause. -/
def Clause.tokens : Clause → List Token
  | .default name => [word name]
  | .bindings rest => rest.tokens
  | .both name rest => word name :: mark ',' :: rest.tokens

/-- The names that a clause binds. -/
def Clause.names : Clause → List (List Char)
  | .default name => [name]
  | .bindings rest => rest.names
  | .both name rest => name :: rest.names

/-- The default name of a clause. -/
def Clause.default? : Clause → Option (List Char)
  | .default name => some name
  | .bindings _ => none
  | .both name _ => some name

section Entries

/-- The name that a part of a list binds. -/
def entryName (entry : List Char) : Option (List Char) :=
  (words entry).getLast?

/-- The name that a written entry binds is its last word. -/
theorem entryName_of_spaced {specifier : Specifier} {text : List Char}
    (h : Spaced (specifier.words.map word) text) : entryName text = some specifier.name := by
  rw [entryName, h.words_eq]
  cases specifier <;> rfl

/-- A blank part of a list binds nothing. -/
theorem entryName_of_blank {text : List Char} (h : Spaced [] text) : entryName text = none := by
  rw [entryName, words_of_blanks h.isBlank_of_nil]
  rfl

/-- A list has at least one part. -/
theorem parts_ne_nil (specifiers : List Specifier) (trailing : Bool) :
    parts specifiers trailing ≠ [] := by
  cases specifiers <;> simp [parts]

/-- No mark stands in a part of a list. -/
theorem mark_not_mem_parts {c : Char} {specifiers : List Specifier} {trailing : Bool} :
    ∀ part ∈ parts specifiers trailing, mark c ∉ part := by
  intro part hpart
  rcases List.mem_append.1 hpart with hpart | hpart
  · obtain ⟨specifier, -, rfl⟩ := List.mem_map.1 hpart
    simp
  · split at hpart
    · obtain rfl := List.mem_singleton.1 hpart
      simp
    · cases hpart

/-- The parts of a list, with blanks around them, give its names. -/
theorem filterMap_entryName {specifiers : List Specifier} {last : List (List Token)}
    {texts : List (List Char)} (hlast : last = [[]] ∨ last = [])
    (h : List.Forall₂ Spaced
      (specifiers.map (fun specifier => specifier.words.map word) ++ last) texts) :
    texts.filterMap entryName = specifiers.map Specifier.name := by
  induction specifiers generalizing texts with
  | nil =>
      rcases hlast with rfl | rfl
      · obtain ⟨text, _, htext, hnil, rfl⟩ := List.forall₂_cons_left_iff.1 h
        cases hnil
        rw [List.filterMap_cons, entryName_of_blank htext]
        rfl
      · cases h
        rfl
  | cons specifier specifiers ih =>
      obtain ⟨text, texts, htext, htexts, rfl⟩ := List.forall₂_cons_left_iff.1 h
      rw [List.filterMap_cons, entryName_of_spaced htext, ih htexts]
      rfl

/-- The text of a list, cut at its commas, gives its names. -/
theorem names_of_list {specifiers : List Specifier} {trailing : Bool} {text : List Char}
    (h : Spaced ([mark ','].intercalate (parts specifiers trailing)) text) :
    (text.splitOn ',').filterMap entryName = specifiers.map Specifier.name := by
  have hsplit := h.splitOn (by decide) (parts_ne_nil _ _) mark_not_mem_parts
  refine filterMap_entryName ?_ hsplit
  split
  · exact .inl rfl
  · exact .inr rfl

/-- The tokens of a part are tokens of the whole list. -/
theorem mem_intercalate {separator token : Token} {part : List Token} {all : List (List Token)}
    (hpart : part ∈ all) (htoken : token ∈ part) : token ∈ [separator].intercalate all := by
  induction all with
  | nil => cases hpart
  | cons first all ih =>
      cases all with
      | nil =>
          rw [List.intercalate_singleton]
          exact List.mem_singleton.1 hpart ▸ htoken
      | cons next all =>
          rw [List.intercalate_cons_cons]
          rcases List.mem_cons.1 hpart with rfl | hpart
          · exact List.mem_append_left _ (List.mem_append_left _ htoken)
          · exact List.mem_append_right _ (ih hpart)

/-- The names of a list are words of the list. -/
theorem word_mem_list {specifiers : List Specifier} {trailing : Bool} {specifier : Specifier}
    (h : specifier ∈ specifiers) :
    word specifier.name ∈ [mark ','].intercalate (parts specifiers trailing) := by
  refine mem_intercalate (List.mem_append_left _ (List.mem_map_of_mem h)) (List.mem_map_of_mem ?_)
  cases specifier <;> simp [Specifier.words, Specifier.name]

end Entries

section Names

/-- The bound names are words among the tokens. -/
theorem Bindings.word_mem_tokens {bindings : Bindings} {name : List Char}
    (h : name ∈ bindings.names) : word name ∈ bindings.tokens := by
  cases bindings with
  | all other =>
      obtain rfl := List.mem_singleton.1 h
      simp [Bindings.tokens]
  | list specifiers trailing =>
      obtain ⟨specifier, hspecifier, rfl⟩ := List.mem_map.1 h
      exact List.mem_cons_of_mem _ (List.mem_append_left _ (word_mem_list hspecifier))

/-- A bound name is a word of the clause. -/
theorem Clause.word_mem_tokens {clause : Clause} {name : List Char} (h : name ∈ clause.names) :
    word name ∈ clause.tokens := by
  cases clause with
  | default other =>
      obtain rfl := List.mem_singleton.1 h
      simp [Clause.tokens]
  | bindings rest => exact Bindings.word_mem_tokens h
  | both other rest =>
      rcases List.mem_cons.1 h with rfl | h
      · exact List.mem_cons_self
      · exact List.mem_cons_of_mem _ (List.mem_cons_of_mem _ (Bindings.word_mem_tokens h))

end Names

section Outside

/-- The names that a part outside of braces binds. -/
def outerNames (part : List Char) : List (List Char) :=
  if trim part = [] then [] else [outerName (trim part)]

/-- The parts outside of braces are read one by one. -/
theorem map_outerName (texts : List (List Char)) :
    ((texts.map trim).filter (· ≠ [])).map outerName = texts.flatMap outerNames := by
  induction texts with
  | nil => rfl
  | cons text texts ih =>
      rw [List.map_cons, List.filter_cons, List.flatMap_cons, ← ih, outerNames]
      by_cases htext : trim text = []
      · simp [htext]
      · simp [htext]

/-- A blank part binds nothing. -/
theorem outerNames_of_blank {text : List Char} (h : Spaced [] text) : outerNames text = [] := by
  have htrim : trim text = [] := by
    have hblank := h.isBlank_of_nil
    rw [trim, ← List.append_nil text, trimStart_blanks_append hblank]
    rfl
  rw [outerNames, if_pos htrim]

/-- A word with blanks around it is trimmed to the word. -/
theorem trim_of_word {name text : List Char} (h : Spaced [word name] text) : trim text = name := by
  obtain ⟨gap, behind, rfl, hgap, hname, hend, hbehind⟩ := h.exists_of_word
  obtain ⟨hne, hall⟩ := isName_iff.1 hname
  have hblank := Spaced.isBlank_of_mem_name hname
  rw [trim, List.append_assoc, trimStart_blanks_append hgap, trimStart_append_eq_self hne hblank,
    trimEnd_append_blanks hbehind.isBlank_of_nil]
  simpa using trimEnd_append_eq_self hne hblank []

/-- A default name. -/
theorem outerNames_of_word {name text : List Char} (h : Spaced [word name] text) :
    outerNames text = [name] := by
  obtain ⟨-, -, -, -, hname, -⟩ := h.exists_of_word
  have hne := (isName_iff.1 hname).1
  rw [outerNames, trim_of_word h, if_neg hne]
  cases name with
  | nil => exact absurd rfl hne
  | cons c name =>
      have hstar : c ≠ '*' :=
        ne_of_isIdentifierChar ((isName_iff.1 hname).2 c (by simp)) (by decide)
      rw [outerName]
      rintro behind hbehind
      exact hstar (List.cons.inj hbehind).1

/-- A text that starts with a word is trimmed to one that starts right with it. -/
theorem exists_of_trim {name text : List Char} {tokens : List Token}
    (h : Spaced (word name :: tokens) text) :
    ∃ rest, trim text = name ++ rest ∧ boundary rest.head? = true ∧ Spaced tokens rest := by
  obtain ⟨gap, behind, rfl, hgap, hname, hend, hbehind⟩ := h.exists_of_word
  have hne := (isName_iff.1 hname).1
  have hblank := Spaced.isBlank_of_mem_name hname
  refine ⟨trimEnd behind, ?_, ?_, hbehind.trimEnd⟩
  · rw [trim, List.append_assoc, trimStart_blanks_append hgap, trimStart_append_eq_self hne hblank,
      trimEnd_append hne hblank]
  · obtain ⟨last, -, hlast⟩ := exists_of_trimEnd behind
    cases hrest : trimEnd behind with
    | nil => rfl
    | cons c rest =>
        rw [hlast, hrest] at hend
        exact hend

/-- A text that starts with no identifier character does not start with `as`. -/
theorem dropAs_eq_self {text : List Char} (h : boundary text.head? = true) :
    dropAs text = text := by
  unfold dropAs
  split
  · next rest =>
      have hword : boundary ('a' :: 's' :: rest).head? = false := by simp [boundary]; decide
      rw [hword] at h
      cases h
  · rfl

/-- A namespace. -/
theorem outerNames_of_all {name text : List Char}
    (h : Spaced [mark '*', word asWord, word name] text) : outerNames text = [name] := by
  obtain ⟨gap, behind, rfl, hgap, -, hbehind⟩ := h.exists_of_mark
  have hstar : ∀ c ∈ ['*'], isBlank c = false := List.forall_mem_singleton.2 (by decide)
  have htrim : trim (gap ++ '*' :: behind) = '*' :: trimEnd behind := by
    rw [trim, trimStart_blanks_append hgap]
    exact (congrArg trimEnd (trimStart_append_eq_self (by simp) hstar behind)).trans
      (trimEnd_append (by simp) hstar behind)
  obtain ⟨rest, hrest, hend, hname⟩ := exists_of_trim hbehind.trimEnd
  calc outerNames (gap ++ '*' :: behind)
      = [outerName ('*' :: trimEnd behind)] := by rw [outerNames, htrim, if_neg (by simp)]
    _ = [trim (dropAs (asWord ++ rest))] := by rw [outerName, hrest]
    _ = [trim (dropAs rest)] := rfl
    _ = [name] := by rw [dropAs_eq_self hend, trim_of_word hname]

/-- `Outer part names` says that a part outside of braces binds `names`. -/
inductive Outer : List Token → List (List Char) → Prop where
  | blank : Outer [] []
  | name (name) : Outer [word name] [name]
  | all (name) : Outer [mark '*', word asWord, word name] [name]

/-- What is read off a part outside of braces are the names that it binds. -/
theorem Outer.outerNames_eq {part : List Token} {names : List (List Char)} {text : List Char}
    (h : Outer part names) (htext : Spaced part text) : outerNames text = names := by
  cases h with
  | blank => exact outerNames_of_blank htext
  | name name => exact outerNames_of_word htext
  | all name => exact outerNames_of_all htext

/-- The star is the only mark in a part outside of braces. -/
theorem mark_not_mem_outer {c : Char} (hc : c ≠ '*') {parts : List (List Token)}
    {names : List (List (List Char))} (h : List.Forall₂ Outer parts names) :
    ∀ part ∈ parts, mark c ∉ part := by
  induction h with
  | nil => simp
  | cons houter _ ih =>
      refine List.forall_mem_cons.2 ⟨?_, ih⟩
      cases houter <;> simp [hc]

/-- No opening brace stands outside of braces. -/
theorem brace_not_mem_outer {parts : List (List Token)} {names : List (List (List Char))}
    (h : List.Forall₂ Outer parts names) : mark '{' ∉ [mark ','].intercalate parts := by
  intro hmem
  rcases exists_of_mem_intercalate hmem with hcomma | ⟨part, hpart, hbrace⟩
  · cases hcomma
  · exact mark_not_mem_outer (by decide) h part hpart hbrace

/-- The parts outside of braces, cut at the commas, give their names. -/
theorem flatMap_outerNames {parts : List (List Token)} {names : List (List (List Char))}
    {text : List Char} (hne : parts ≠ []) (hparts : List.Forall₂ Outer parts names)
    (h : Spaced ([mark ','].intercalate parts) text) :
    (text.splitOn ',').flatMap outerNames = names.flatten := by
  have hsplit := h.splitOn (by decide) hne (mark_not_mem_outer (by decide) hparts)
  clear h hne
  generalize text.splitOn ',' = texts at hsplit
  induction hparts generalizing texts with
  | nil =>
      cases hsplit
      rfl
  | cons houter _ ih =>
      obtain ⟨text, texts, htext, htexts, rfl⟩ := List.forall₂_cons_left_iff.1 hsplit
      rw [List.flatMap_cons, houter.outerNames_eq htext, ih texts htexts, List.flatten_cons]

end Outside

section Clauses

variable {parts : List (List Token)} {names : List (List (List Char))} {bindings : Bindings}
  {clause : Clause} {specifiers : List Specifier} {trailing : Bool} {text rest : List Char}

/-- The names of a clause from whose start no word is dropped. -/
def clauseNames (text : List Char) : List (List Char) :=
  namesOf (splitBraces (trim text))

/-- The names of a clause, read off the two parts of its text. -/
theorem clauseNames_eq (text : List Char) :
    clauseNames text =
      ((splitBraces (trim text)).1.splitOn ',').flatMap outerNames ++
        ((splitBraces (trim text)).2.elim [] (·.splitOn ',')).filterMap entryName := by
  rw [← map_outerName]
  rfl

/-- The names of a clause without a list. -/
theorem clauseNames_of_parts (hne : parts ≠ []) (hparts : List.Forall₂ Outer parts names)
    (h : Spaced ([mark ','].intercalate parts) text) : clauseNames text = names.flatten := by
  have hnone : '{' ∉ trim text :=
    mt (h.trim.mem_iff_mark (by decide)).1 (brace_not_mem_outer hparts)
  rw [clauseNames_eq, splitBraces_of_not_mem hnone]
  simpa using flatMap_outerNames hne hparts h.trim

/-- The names of a clause with a list at its end. -/
theorem clauseNames_of_list (hne : parts ≠ []) (hparts : List.Forall₂ Outer parts names)
    (h : Spaced ([mark ','].intercalate parts ++ (Bindings.list specifiers trailing).tokens)
      text) :
    clauseNames text = names.flatten ++ specifiers.map Specifier.name := by
  obtain ⟨outer, rest, hopening, -, houter, hrest⟩ := h.trim.exists_of_append_mark
  obtain ⟨inner, behind, rfl, -, hinner, hbehind⟩ := hrest.exists_of_append_mark
  have hfront : '{' ∉ outer := mt (houter.mem_iff_mark (by decide)).1 (brace_not_mem_outer hparts)
  have hlast : '}' ∉ behind := mt (hbehind.mem_iff_mark (by decide)).1 (by simp)
  have houtside := houter.append_blanks_end hbehind.isBlank_of_nil
  rw [clauseNames_eq, hopening, splitBraces_append hfront hlast]
  exact congrArg₂ (· ++ ·) (flatMap_outerNames hne hparts houtside) (names_of_list hinner)

/-- The names of a clause behind a first part and a comma. -/
theorem clauseNames_of_comma {first : List Token} {names : List (List Char)}
    (hfirst : Outer first names) (h : Spaced (first ++ mark ',' :: bindings.tokens) text) :
    clauseNames text = names ++ bindings.names := by
  cases bindings with
  | all name =>
      have hparts := List.Forall₂.cons hfirst (.cons (.all name) .nil)
      rw [clauseNames_of_parts (by simp) hparts (by simpa [Bindings.tokens] using h)]
      rfl
  | list specifiers trailing =>
      have hparts := List.Forall₂.cons hfirst (.cons .blank .nil)
      rw [clauseNames_of_list (by simp) hparts (by simpa using h)]
      simp [Bindings.names]

/-- The names of a clause are read off its text. -/
theorem clauseNames_of_spaced (h : Spaced clause.tokens text) :
    clauseNames text = clause.names := by
  match clause with
  | .default name => exact clauseNames_of_parts (by simp) (.cons (.name name) .nil) h
  | .bindings (.all name) => exact clauseNames_of_parts (by simp) (.cons (.all name) .nil) h
  | .bindings (.list specifiers trailing) =>
      exact clauseNames_of_list (by simp) (.cons .blank .nil) h
  | .both name rest => exact clauseNames_of_comma (.name name) h

/-- The word `type`. -/
def typeWord : List Char :=
  ['t', 'y', 'p', 'e']

/-- The word `type` is dropped if a space stands right behind it. -/
theorem dropTypeWord_append (text : List Char) :
    dropTypeWord (typeWord ++ ' ' :: text) = text := by
  have hrest : ['t', 'y', 'p', 'e', ' '].isPrefixOf? (typeWord ++ ' ' :: text) = some text :=
    List.isPrefixOf?_eq_some_iff_append_eq.2 rfl
  rw [dropTypeWord, hrest]
  rfl

/-- Nothing is dropped from any other text. -/
theorem dropTypeWord_of_not_prefix (h : ¬ typeWord ++ [' '] <+: text) :
    dropTypeWord text = text := by
  unfold dropTypeWord
  cases hstart : ['t', 'y', 'p', 'e', ' '].isPrefixOf? text with
  | none => rfl
  | some rest => exact absurd ⟨rest, List.isPrefixOf?_eq_some_iff_append_eq.1 hstart⟩ h

/-- A clause that starts with the word `type` and a space has it as its default name, and binds
other names than the text behind the word. -/
theorem clauseNames_ne_of_type (h : Spaced clause.tokens (typeWord ++ ' ' :: rest)) :
    clause.default? = some typeWord ∧ clauseNames rest ≠ clause.names := by
  have hspace : boundary (' ' :: rest).head? = true := boundary_of_isBlank (by decide)
  obtain ⟨others, htokens, hothers⟩ := h.of_name (by decide) hspace
  have hrest := hothers.of_blank (by decide)
  match clause with
  | .default name =>
      obtain ⟨hname, rfl⟩ := List.cons.inj htokens
      obtain rfl := Token.word.inj hname
      refine ⟨rfl, ?_⟩
      rw [clauseNames_of_parts (by simp) (.cons .blank .nil) hrest]
      simp [Clause.names]
  | .bindings (.all name) | .bindings (.list specifiers trailing) => cases htokens
  | .both name bindings =>
      obtain ⟨hname, rfl⟩ := List.cons.inj htokens
      obtain rfl := Token.word.inj hname
      refine ⟨rfl, ?_⟩
      rw [clauseNames_of_comma .blank hrest]
      simp [Clause.names]

/-- A clause with another default name does not start with the word `type` and a space. -/
theorem not_prefix_of_default?_ne (h : Spaced clause.tokens text)
    (htype : clause.default? ≠ some typeWord) : ¬ typeWord ++ [' '] <+: text := by
  rintro ⟨rest, rfl⟩
  rw [List.append_assoc] at h
  exact htype (clauseNames_ne_of_type h).1

/-- No word is dropped in front of a clause with another default name. -/
theorem localNames_of_spaced (h : Spaced clause.tokens text)
    (htype : clause.default? ≠ some typeWord) : localNames text = clause.names := by
  have hnames : localNames text = clauseNames (dropTypeWord text) := rfl
  rw [hnames, dropTypeWord_of_not_prefix (not_prefix_of_default?_ne h htype),
    clauseNames_of_spaced h]

/-- Reading a clause inverts writing it, whatever blanks stand between its tokens: the names that it
binds are found in their order. Only a default name `type` is taken for another word, exactly if a
space stands right behind it and nothing in front; that word is passed over in front of a clause
without a look at the clause. -/
theorem localNamesAt_inverts (h : Spaced clause.tokens text) :
    (clause.default? ≠ some typeWord → localNamesAt text = .ok clause.names) ∧
      (localNamesAt text = .ok clause.names ↔ ¬ typeWord ++ [' '] <+: text) ∧
      localNamesAt (typeWord ++ ' ' :: text) = .ok clause.names := by
  have hread (text : List Char) :
      localNamesAt text = .ok (clauseNames (dropTypeWord text)) := localNamesAt_eq text
  refine ⟨fun htype => ?_, ⟨?_, fun hprefix => ?_⟩, ?_⟩
  · rw [localNamesAt_eq, localNames_of_spaced h htype]
  · rintro hnames ⟨rest, rfl⟩
    rw [List.append_assoc] at h hnames
    rw [hread, List.singleton_append, dropTypeWord_append] at hnames
    exact (clauseNames_ne_of_type h).2 (Except.ok.inj hnames)
  · rw [hread, dropTypeWord_of_not_prefix hprefix, clauseNames_of_spaced h]
  · rw [hread, dropTypeWord_append, clauseNames_of_spaced h]

/-- A clause whose names are the words of other clauses, or begin with one. -/
def contextualClause : Clause :=
  .both ['f', 'r', 'o', 'm']
    (.list [.renamed ['f', 'r', 'o', 'm'] asWord, .plain ['a', 's', 'y', 'n', 'c']] true)

/-- The names of a clause are found among the words of other clauses, with line ends and no-break
spaces between them. -/
theorem localNamesAt_inverts_contextual :
    Spaced contextualClause.tokens "from,\u2028\x7b\u00a0from as\nas , async,\x7d".toList ∧
      localNamesAt "from,\u2028\x7b\u00a0from as\nas , async,\x7d".toList =
        .ok ["from".toList, "as".toList, "async".toList] := by
  have hspaced : Spaced contextualClause.tokens
      (['f', 'r', 'o', 'm'] ++ ',' :: '\u2028' :: '{' :: '\u00a0' :: (['f', 'r', 'o', 'm'] ++
        ' ' :: (asWord ++ '\n' :: (asWord ++ ' ' :: ',' :: ' ' ::
          (['a', 's', 'y', 'n', 'c'] ++ [',', '}']))))) :=
    .word rfl rfl <| .mark rfl <| .blank rfl <| .mark rfl <| .blank rfl <| .word rfl rfl <|
      .blank rfl <| .word rfl rfl <| .blank rfl <| .word rfl rfl <| .blank rfl <| .mark rfl <|
        .blank rfl <| .word rfl rfl <| .mark rfl <| .mark rfl .nil
  have hnames := (localNamesAt_inverts hspaced).1 (by decide)
  exact ⟨hspaced, hnames⟩

end Clauses

end MiniProgram.Module
