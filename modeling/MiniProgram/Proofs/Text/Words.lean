import MiniProgram.Proofs.Text.Blank
import MiniProgram.Source.Binding
import MiniProgram.Text.Search

/-!
# Whole words of a text

`identifiers text` lists the maximal runs of identifier characters of a text. `occurs_iff_mem` says
that the search for a whole word finds exactly these runs, although it only tries occurrences that
do not overlap.

`Sheds previous text rest` says that `rest` is left of `text` when pieces are cut out that neither
begin nor end inside of a word. Every word of `rest` is then a word of `text`
(`StandsIn.of_sheds`).
-/

namespace MiniProgram.Text

open Source (isName)

/-- The maximal runs of identifier characters of a text. -/
def identifiers (text : List Char) : List (List Char) :=
  (text.splitOnP fun c => !isIdentifierChar c).filter (· ≠ [])

/-- `StandsIn previous name text` says that `name` stands in `text` and has no identifier character
on either side, where `previous` is the character in front of `text`. -/
def StandsIn (previous : Option Char) (name text : List Char) : Prop :=
  ∃ before after, text = before ++ name ++ after ∧
    boundary (before.getLast?.or previous) = true ∧ boundary after.head? = true

section Characters

variable {c : Char}

/-- A blank is no identifier character. -/
theorem isIdentifierChar_of_isBlank (h : isBlank c = true) : isIdentifierChar c = false :=
  eq_false_of_isBlank (by decide +kernel) h

/-- An identifier character is no blank. -/
theorem isBlank_of_isIdentifierChar (h : isIdentifierChar c = true) : isBlank c = false := by
  cases hblank : isBlank c with
  | false => rfl
  | true => rw [isIdentifierChar_of_isBlank hblank] at h; cases h

/-- Behind a character there is a boundary if it belongs to no identifier. -/
theorem boundary_some : boundary (some c) = !isIdentifierChar c := by
  simp [boundary]

/-- The end of a text is a boundary. -/
@[simp]
theorem boundary_none : boundary none = true := rfl

/-- A word may end at a blank. -/
theorem boundary_of_isBlank (h : isBlank c = true) : boundary (some c) = true := by
  simp [boundary_some, isIdentifierChar_of_isBlank h]

end Characters

section Names

variable {name : List Char}

/-- A name is not empty, and has identifier characters alone. -/
theorem isName_iff : isName name = true ↔ name ≠ [] ∧ ∀ c ∈ name, isIdentifierChar c = true := by
  simp [isName]

/-- The last character of a name is no boundary. -/
theorem boundary_getLast? (h : isName name = true) : boundary name.getLast? = false := by
  obtain ⟨hne, hall⟩ := isName_iff.1 h
  rw [List.getLast?_eq_some_getLast hne, boundary_some, hall _ (List.getLast_mem hne)]
  rfl

/-- Nor is any other one. -/
theorem boundary_head?_append (h : isName name = true) (rest : List Char) :
    boundary (name ++ rest).head? = false := by
  obtain ⟨hne, hall⟩ := isName_iff.1 h
  cases name with
  | nil => exact absurd rfl hne
  | cons c name => simp [boundary_some, hall c (by simp)]

/-- Two names that both end at boundaries of one text are the same. -/
theorem name_append_inj {other rest otherRest : List Char} (hname : isName name = true)
    (hother : isName other = true) (hrest : boundary rest.head? = true)
    (hotherRest : boundary otherRest.head? = true) (h : name ++ rest = other ++ otherRest) :
    name = other ∧ rest = otherRest := by
  have hstop {text : List Char} (hend : boundary text.head? = true) :
      text.takeWhile isIdentifierChar = [] := by
    cases text with
    | nil => rfl
    | cons c text =>
        rw [List.head?_cons, boundary_some, Bool.not_eq_true'] at hend
        simp [hend]
  have hsame := congrArg (List.takeWhile isIdentifierChar) h
  rw [List.takeWhile_append_of_pos (isName_iff.1 hname).2,
    List.takeWhile_append_of_pos (isName_iff.1 hother).2, hstop hrest, hstop hotherRest,
    List.append_nil, List.append_nil] at hsame
  subst hsame
  exact ⟨rfl, List.append_cancel_left h⟩

end Names

section Search

variable {name : List Char}

/-- The last character of a text is looked for behind its first one. -/
theorem getLast?_cons_or (c : Char) (before : List Char) (previous : Option Char) :
    (c :: before).getLast?.or previous = before.getLast?.or (some c) := by
  rw [List.getLast?_cons]
  cases before.getLast? <;> rfl

/-- The last character of two texts is the one of the second, if it has any. -/
theorem getLast?_append_or (before after : List Char) (previous : Option Char) :
    (before ++ after).getLast?.or previous = after.getLast?.or (before.getLast?.or previous) := by
  rw [List.getLast?_append, Option.or_assoc]

/-- The character in front of what follows a name is the last one of the name. -/
theorem getLast?_or_of_isName (hname : isName name = true) (previous : Option Char) :
    name.getLast?.or previous = name.getLast? := by
  rw [List.getLast?_eq_some_getLast (isName_iff.1 hname).1]
  rfl

/-- Of the character in front of a text only counts whether it is a boundary. -/
theorem StandsIn.congr {previous other : Option Char} {text : List Char}
    (hsame : boundary previous = boundary other) (h : StandsIn previous name text) :
    StandsIn other name text := by
  obtain ⟨before, after, htext, hbefore, hafter⟩ := h
  refine ⟨before, after, htext, ?_, hafter⟩
  cases hlast : before.getLast? with
  | none =>
      rw [hlast] at hbefore
      exact hsame ▸ hbefore
  | some c =>
      rw [hlast] at hbefore
      exact hbefore

/-- A name stands in a longer text exactly when it stands in the rest, unless the text starts with
it. -/
theorem standsIn_cons_iff {previous : Option Char} {c : Char} {rest : List Char}
    (hstart : ¬ name <+: c :: rest) :
    StandsIn previous name (c :: rest) ↔ StandsIn (some c) name rest := by
  constructor
  · rintro ⟨before, after, htext, hbefore, hafter⟩
    cases before with
    | nil => exact absurd ⟨after, htext.symm⟩ hstart
    | cons d before =>
        obtain ⟨rfl, hrest⟩ := List.cons.inj htext
        exact ⟨before, after, hrest, getLast?_cons_or .. ▸ hbefore, hafter⟩
  · rintro ⟨before, after, rfl, hbefore, hafter⟩
    exact ⟨c :: before, after, rfl, getLast?_cons_or .. ▸ hbefore, hafter⟩

/-- A name does not stand across an occurrence of itself: it stands right there or behind. -/
theorem standsIn_append_iff {previous : Option Char} {rest : List Char}
    (hname : isName name = true) :
    StandsIn previous name (name ++ rest) ↔
      (boundary previous = true ∧ boundary rest.head? = true) ∨
        StandsIn name.getLast? name rest := by
  constructor
  · rintro ⟨before, after, htext, hbefore, hafter⟩
    rw [List.append_assoc] at htext
    rcases List.append_eq_append_iff.1 htext with ⟨inner, rfl, hrest⟩ | ⟨inner, hname', hrest⟩
    · refine .inr ⟨inner, after, by rw [hrest, List.append_assoc], ?_, hafter⟩
      rwa [getLast?_append_or, getLast?_or_of_isName hname] at hbefore
    · cases before with
      | nil =>
          obtain rfl : name = inner := hname'
          exact .inl ⟨hbefore, List.append_cancel_left hrest ▸ hafter⟩
      | cons c before =>
          -- the character in front would be one of the name
          have hinside : isName (c :: before) = true :=
            isName_iff.2 ⟨by simp, fun d hd =>
              (isName_iff.1 hname).2 d (hname' ▸ List.mem_append_left _ hd)⟩
          rw [getLast?_or_of_isName hinside, boundary_getLast? hinside] at hbefore
          cases hbefore
  · rintro (⟨hprevious, hrest⟩ | ⟨before, after, rfl, hbefore, hafter⟩)
    · exact ⟨[], rest, rfl, hprevious, hrest⟩
    · refine ⟨name ++ before, after, by simp, ?_, hafter⟩
      rwa [getLast?_append_or, getLast?_or_of_isName hname]

/-- Induction along a search that continues behind each occurrence of a pattern. -/
theorem search_induction {pattern : List Char} (hne : pattern ≠ []) {motive : List Char → Prop}
    (nil : motive []) (found : ∀ behind, motive behind → motive (pattern ++ behind))
    (other : ∀ c rest, ¬ pattern <+: c :: rest → motive rest → motive (c :: rest))
    (text : List Char) : motive text := by
  induction hlength : text.length using Nat.strongRecOn generalizing text with
  | _ length ih =>
    subst hlength
    by_cases hstart : pattern <+: text
    · obtain ⟨behind, rfl⟩ := hstart
      have hpos := List.length_pos_iff.2 hne
      exact found behind (ih _ (by rw [List.length_append]; omega) behind rfl)
    · cases text with
      | nil => exact nil
      | cons c rest => exact other c rest hstart (ih _ (Nat.lt_succ_self _) rest rfl)

/-- No name stands in an empty text. -/
theorem occursFrom_nil (name : List Char) (previous : Option Char) :
    occursFrom name previous [] = false := by
  rw [occursFrom]

/-- Where a name stands, it counts if there are boundaries on both sides. The search goes on behind
it. -/
theorem occursFrom_found (hne : name ≠ []) (previous : Option Char) (behind : List Char) :
    occursFrom name previous (name ++ behind) =
      ((boundary previous && boundary behind.head?) ||
        occursFrom name name.getLast? behind) := by
  obtain ⟨c, word, rfl⟩ := List.exists_cons_of_ne_nil hne
  have hprefix : (c :: word).isPrefixOf (c :: (word ++ behind)) = true :=
    List.isPrefixOf_iff_prefix.2 (List.prefix_append (c :: word) behind)
  rw [List.cons_append, occursFrom, hprefix, if_pos (by simp), List.length_cons,
    Nat.add_sub_cancel, List.drop_succ_cons, List.drop_left]

/-- Where no name stands, the search goes on with the next character. -/
theorem occursFrom_other {c : Char} {rest : List Char} (h : ¬ name <+: c :: rest)
    (previous : Option Char) :
    occursFrom name previous (c :: rest) = occursFrom name (some c) rest := by
  rw [occursFrom, if_neg (by simp [h])]

/-- The search for a name finds it exactly when it stands in the text. -/
theorem occursFrom_iff (hname : isName name = true) (previous : Option Char) (text : List Char) :
    occursFrom name previous text = true ↔ StandsIn previous name text := by
  have hne := (isName_iff.1 hname).1
  induction text using search_induction hne generalizing previous with
  | nil =>
      refine iff_of_false (by simp [occursFrom_nil]) ?_
      rintro ⟨before, after, htext, -⟩
      simp [hne] at htext
  | found behind ih =>
      rw [occursFrom_found hne, standsIn_append_iff hname, Bool.or_eq_true, Bool.and_eq_true]
      exact or_congr_right (ih name.getLast?)
  | other c rest hstart ih =>
      rw [occursFrom_other hstart]
      exact (ih (some c)).trans (standsIn_cons_iff hstart).symm

/-- The runs of a text are those in front of a character that is in none and those behind. -/
theorem identifiers_append_cons (before after : List Char) {c : Char}
    (h : isIdentifierChar c = false) :
    identifiers (before ++ c :: after) = identifiers before ++ identifiers after := by
  rw [identifiers, List.splitOnP_append_cons _ _ (by simp [h]), List.filter_append]
  rfl

/-- A character that is in no run may be left out in front. -/
theorem identifiers_cons {c : Char} (h : isIdentifierChar c = false) (text : List Char) :
    identifiers (c :: text) = identifiers text :=
  identifiers_append_cons [] text h

/-- A text of identifier characters is one run, unless it is empty. -/
theorem identifiers_of_all {text : List Char} (h : ∀ c ∈ text, isIdentifierChar c = true) :
    identifiers text = if text = [] then [] else [text] := by
  rw [identifiers, List.splitOnP_eq_singleton (by simpa using h)]
  simp [List.filter_cons]

/-- A name in front is the first run. -/
theorem identifiers_name_append (hname : isName name = true) {rest : List Char}
    (hend : boundary rest.head? = true) :
    identifiers (name ++ rest) = name :: identifiers rest := by
  obtain ⟨hne, hall⟩ := isName_iff.1 hname
  cases rest with
  | nil => rw [List.append_nil, identifiers_of_all hall, if_neg hne]; rfl
  | cons c rest =>
      rw [List.head?_cons, boundary_some, Bool.not_eq_true'] at hend
      rw [identifiers_append_cons _ _ hend, identifiers_of_all hall, if_neg hne,
        identifiers_cons hend]
      rfl

/-- A run is a name that stands in the text. The text is taken apart from the left: `run` is the run
that has been read up to now, behind `previous`. -/
theorem standsIn_of_mem_identifiers {previous : Option Char} {run text : List Char}
    (hprevious : boundary previous = true) (hrun : ∀ c ∈ run, isIdentifierChar c = true)
    (h : name ∈ identifiers (run ++ text)) :
    isName name = true ∧ StandsIn previous name (run ++ text) := by
  induction text generalizing previous run with
  | nil =>
      rw [List.append_nil, identifiers_of_all hrun] at h
      split at h
      · cases h
      · next hne =>
          obtain rfl := List.mem_singleton.1 h
          exact ⟨isName_iff.2 ⟨hne, hrun⟩, [], [], by simp, hprevious, rfl⟩
  | cons c text ih =>
      cases hc : isIdentifierChar c with
      | true =>
          rw [← List.singleton_append, ← List.append_assoc] at h ⊢
          refine ih hprevious ?_ h
          intro d hd
          rcases List.mem_append.1 hd with hd | hd
          · exact hrun d hd
          · rwa [List.mem_singleton.1 hd]
      | false =>
          have hboundary : boundary (some c) = true := by rw [boundary_some, hc]; rfl
          rw [identifiers_append_cons _ _ hc, List.mem_append, identifiers_of_all hrun] at h
          rcases h with h | h
          · split at h
            · cases h
            · next hne =>
                obtain rfl := List.mem_singleton.1 h
                exact ⟨isName_iff.2 ⟨hne, hrun⟩, [], c :: text, rfl, hprevious, hboundary⟩
          · obtain ⟨hname, before, after, htext, hbefore, hafter⟩ :=
              @ih (some c) [] hboundary (by simp) h
            refine ⟨hname, run ++ c :: before, after, ?_, ?_, hafter⟩
            · rw [List.nil_append] at htext
              rw [htext]
              simp
            · rwa [getLast?_append_or, getLast?_cons_or]

/-- The runs of a text are the names that stand in it. -/
theorem mem_identifiers_iff {text : List Char} :
    name ∈ identifiers text ↔ isName name = true ∧ StandsIn none name text := by
  refine ⟨@standsIn_of_mem_identifiers name none [] text rfl (by simp), ?_⟩
  rintro ⟨hname, before, after, rfl, hbefore, hafter⟩
  have hend : name ∈ identifiers (name ++ after) := by
    rw [identifiers_name_append hname hafter]
    exact List.mem_cons_self
  rcases List.eq_nil_or_concat before with rfl | ⟨front, c, rfl⟩
  · simpa using hend
  · rw [List.concat_eq_append, List.getLast?_concat, Option.or_none, boundary_some,
      Bool.not_eq_true'] at hbefore
    rw [List.concat_eq_append, List.append_assoc, List.append_assoc, List.singleton_append,
      identifiers_append_cons _ _ hbefore]
    exact List.mem_append_right _ hend

/-- The search for a name finds exactly the maximal runs of identifier characters. -/
theorem occurs_iff_mem {text : List Char} (hname : isName name = true) :
    occurs name text = true ↔ name ∈ identifiers text := by
  rw [occurs, occursFrom_iff hname, mem_identifiers_iff, and_iff_right hname]

end Search

/-- `Sheds previous text rest` says that `rest` is left of `text`, which stands behind `previous`,
when pieces are cut out that begin and end at word boundaries. -/
inductive Sheds : Option Char → List Char → List Char → Prop where
  | nil (previous) : Sheds previous [] []
  | keep {previous c text rest} : Sheds (some c) text rest → Sheds previous (c :: text) (c :: rest)
  | cut {previous text rest} (piece : List Char) :
      boundary previous = true →
      boundary piece.getLast? = true ∨ boundary text.head? = true →
      Sheds none text rest → Sheds previous (piece ++ text) rest

section Shedding

variable {previous : Option Char} {name text rest : List Char}

/-- Cutting nothing out. -/
theorem Sheds.refl (previous : Option Char) (text : List Char) : Sheds previous text text := by
  induction text generalizing previous with
  | nil => exact .nil _
  | cons c text ih => exact .keep (ih _)

/-- What is cut out of a rest is cut out of the whole text. -/
theorem Sheds.append_left (front : List Char) (h : Sheds (front.getLast?.or previous) text rest) :
    Sheds previous (front ++ text) (front ++ rest) := by
  induction front generalizing previous with
  | nil => exact h
  | cons c front ih => exact .keep (ih (by rwa [getLast?_cons_or] at h))

/-- Nothing is cut out right behind a character of a word. -/
theorem Sheds.exists_of_name {after : List Char} (hname : ∀ c ∈ name, isIdentifierChar c = true)
    (hprevious : boundary previous = false) (h : Sheds previous text (name ++ after))
    (hafter : boundary after.head? = true) :
    ∃ behind, text = name ++ behind ∧ boundary behind.head? = true := by
  induction name generalizing previous text with
  | nil =>
      refine ⟨text, rfl, ?_⟩
      generalize hrest : [] ++ after = rest at h
      obtain rfl : after = rest := hrest
      cases h with
      | nil => rfl
      | keep => exact hafter
      | cut piece hcut => rw [hprevious] at hcut; cases hcut
  | cons c name ih =>
      generalize hrest : (c :: name) ++ after = rest at h
      cases h with
      | nil => cases hrest
      | keep h =>
          obtain ⟨rfl, rfl⟩ := List.cons.inj hrest
          have hc : boundary (some c) = false := by simp [boundary_some, hname c (by simp)]
          obtain ⟨behind, rfl, hbehind⟩ := ih (fun d hd => hname d (by simp [hd])) hc h
          exact ⟨behind, rfl, hbehind⟩
      | cut piece hcut => rw [hprevious] at hcut; cases hcut

/-- A word of what is left is a word of the text. -/
theorem StandsIn.of_sheds (hname : isName name = true) (h : Sheds previous text rest)
    (hstands : StandsIn previous name rest) : StandsIn previous name text := by
  obtain ⟨before, after, hrest, hbefore, hafter⟩ := hstands
  induction h generalizing before with
  | nil previous => exact ⟨before, after, hrest, hbefore, hafter⟩
  | @keep previous c text rest h ih =>
      cases before with
      | nil =>
          -- the word starts here and goes on until it ends
          cases name with
          | nil => simp [isName] at hname
          | cons d name =>
              obtain ⟨rfl, rfl⟩ := List.cons.inj hrest
              obtain ⟨-, hall⟩ := isName_iff.1 hname
              obtain ⟨behind, rfl, hbehind⟩ := h.exists_of_name (fun d hd => hall d (by simp [hd]))
                (by simp [boundary_some, hall c (by simp)]) hafter
              exact ⟨[], behind, rfl, hbefore, hbehind⟩
      | cons d before =>
          obtain ⟨rfl, htail⟩ := List.cons.inj hrest
          obtain ⟨front, behind, rfl, hfront, hbehind⟩ :=
            ih before htail (by rwa [getLast?_cons_or] at hbefore)
          exact ⟨c :: front, behind, rfl, by rwa [getLast?_cons_or], hbehind⟩
  | @cut previous text rest piece hprevious hpiece h ih =>
      obtain ⟨front, behind, rfl, hfront, hbehind⟩ := ih before hrest (by
        cases hlast : before.getLast? <;> simp_all)
      refine ⟨piece ++ front, behind, by simp, ?_, hbehind⟩
      rw [getLast?_append_or]
      cases hlast : front.getLast? with
      | some c => simpa [hlast] using hfront
      | none =>
          obtain rfl := List.getLast?_eq_none_iff.1 hlast
          have hend : boundary piece.getLast? = true := by
            rcases hpiece with hpiece | hpiece
            · exact hpiece
            · rw [List.nil_append, boundary_head?_append hname] at hpiece
              cases hpiece
          cases hpiece : piece.getLast? <;> simp_all

/-- Cutting words out leaves no new word. -/
theorem identifiers_subset_of_sheds (h : Sheds none text rest) :
    identifiers rest ⊆ identifiers text := by
  intro name hmem
  obtain ⟨hname, hstands⟩ := mem_identifiers_iff.1 hmem
  exact mem_identifiers_iff.2 ⟨hname, hstands.of_sheds hname h⟩

end Shedding

end MiniProgram.Text
