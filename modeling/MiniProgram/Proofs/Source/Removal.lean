import MiniProgram.Proofs.Source.Stripping

/-!
# The names of dropped declarations

`dropped` lists the declarations that stripping drops in all its rounds. Read `exists_final` first:
in the last text, no name of theirs stands between the declarations. A word of code that does not
stand in a declaration stands between them (`standsIn_of_not_covers`).
-/

namespace MiniProgram.Source

open Text

/-- The declarations that one round of stripping drops. -/
def unusedImports (glyphs : List Glyph) : List Declaration :=
  (segments glyphs).filterMap fun
    | .other _ => none
    | .imports declaration =>
        if isUnused (body (segments glyphs)) declaration then some declaration else none

/-- `dropped glyphs` lists the declarations that stripping drops until nothing changes. -/
def dropped (glyphs : List Glyph) : List Declaration :=
  if _h : strip glyphs = glyphs then []
  else
    unusedImports glyphs ++
      match _h' : scan (chars (strip glyphs)) with
      | none => []
      | some next => dropped next
termination_by glyphs.length
decreasing_by
  have same := congrArg List.length (chars_of_scan _h')
  have shorter : (strip glyphs).length < glyphs.length :=
    Nat.lt_of_le_of_ne (strip_sublist glyphs).length_le fun equal =>
      _h ((strip_sublist glyphs).eq_of_length equal)
  simp only [chars, List.length_map] at same
  omega

/-- `covers pieces position` says that the character at a position of the pieces stands in a
declaration. -/
def covers : List Segment → Nat → Bool
  | [], _ => false
  | .other _ :: _, 0 => false
  | .other _ :: pieces, position + 1 => covers pieces position
  | .imports declaration :: pieces, position =>
      position < declaration.text.length || covers pieces (position - declaration.text.length)

section Rounds

variable {glyphs : List Glyph} {declaration : Declaration} {name : List Char}

/-- The names of an unused declaration do not stand in the text. -/
theorem not_mem_of_isUnused {text : List Char} (h : isUnused text declaration = true)
    (hname : name ∈ declaration.names) : name ∉ identifiers text := by
  simp only [isUnused, Bool.and_eq_true, List.all_eq_true] at h
  obtain ⟨⟨-, hnames⟩, hunused⟩ := h
  have hreferenced := hunused name hname
  intro hmem
  rw [isReferenced, (occurs_iff_mem (hnames name hname)).2 hmem] at hreferenced
  simp at hreferenced

/-- The names that a round drops do not stand between its declarations. -/
theorem not_mem_of_unusedImports (h : declaration ∈ unusedImports glyphs)
    (hname : name ∈ declaration.names) : name ∉ identifiers (body (segments glyphs)) := by
  obtain ⟨piece, -, hpiece⟩ := List.mem_filterMap.1 h
  cases piece with
  | other g => cases hpiece
  | imports other =>
      dsimp only at hpiece
      split at hpiece
      · next hunused =>
          cases hpiece
          exact not_mem_of_isUnused hunused hname
      · cases hpiece

/-- The names that stripping drops do not stand between the declarations of the last text. -/
theorem exists_final (h : Readable .code glyphs) :
    ∃ final, chars final = stripAll glyphs ∧ Readable .code final ∧
      identifiers (body (segments final)) ⊆ identifiers (body (segments glyphs)) ∧
      ∀ declaration ∈ dropped glyphs, ∀ name ∈ declaration.names,
        name ∉ identifiers (body (segments final)) := by
  fun_induction stripAll glyphs with
  | case1 glyphs hsame =>
      refine ⟨glyphs, rfl, h, List.Subset.refl _, fun declaration hdeclaration => ?_⟩
      rw [dropped, dif_pos hsame] at hdeclaration
      cases hdeclaration
  | case2 glyphs hchange hnone =>
      obtain ⟨hreadable, hsubset⟩ := readable_strip h
      refine ⟨strip glyphs, rfl, hreadable, hsubset, fun declaration hdeclaration name hname => ?_⟩
      rw [dropped, dif_neg hchange, hnone] at hdeclaration
      have hunused : declaration ∈ unusedImports glyphs := by simpa using hdeclaration
      exact mt (@hsubset name) (not_mem_of_unusedImports hunused hname)
  | case3 glyphs hchange next hnext ih =>
      obtain ⟨hreadable, hsubset⟩ := readable_strip h
      -- the next round reads what is left as it was read before
      obtain rfl : next = strip glyphs :=
        (readable_of_scan hnext).unique hreadable (chars_of_scan hnext)
      obtain ⟨final, hchars, hfinal, hbody, hdropped⟩ := ih hreadable
      refine ⟨final, hchars, hfinal, List.Subset.trans hbody hsubset, ?_⟩
      intro declaration hdeclaration name hname
      rw [dropped, dif_neg hchange, hnext] at hdeclaration
      rcases List.mem_append.1 hdeclaration with hunused | hlater
      · exact mt (fun hmem => hsubset (hbody hmem)) (not_mem_of_unusedImports hunused hname)
      · exact hdropped declaration hlater name hname

end Rounds

section Places

variable {before : List Char} {previous : Option Char} {name : List Char}
  {glyphs front word behind : List Glyph}

/-- No declaration starts inside of a word. -/
theorem bodyFrom_word (hall : ∀ c ∈ chars word, isIdentifierChar c = true)
    (hbefore : boundary before.head? = false) (glyphs : List Glyph) :
    bodyFrom before (word ++ glyphs) =
      chars word ++ bodyFrom ((chars word).reverse ++ before) glyphs := by
  induction word generalizing before with
  | nil => rfl
  | cons g word ih =>
      obtain ⟨hg, hword⟩ := List.forall_mem_cons.1 hall
      have hnone : declaration? before (g :: (word ++ glyphs)) = none := by
        refine Option.eq_none_iff_forall_ne_some.2 fun ⟨declaration, rest⟩ hsome => ?_
        rw [(word?_of_declaration? hsome).1] at hbefore
        cases hbefore
      rw [List.cons_append, bodyFrom_cons hnone, ih hword (by simp [boundary_some, hg])]
      simp

/-- Behind a boundary the text between the declarations starts at a boundary, as no declaration
does. -/
theorem boundary_bodyFrom (before : List Char) (h : boundary (chars glyphs).head? = true) :
    boundary (bodyFrom before glyphs).head? = true := by
  cases glyphs with
  | nil => rw [bodyFrom_nil]; rfl
  | cons g glyphs =>
      have hnone : declaration? before (g :: glyphs) = none := by
        refine Option.eq_none_iff_forall_ne_some.2 fun ⟨declaration, rest⟩ hsome => ?_
        obtain ⟨-, tail, hword⟩ := word?_of_declaration? hsome
        rw [append_of_word? hword, boundary_head?_append isName_importWord] at h
        cases h
      rw [bodyFrom_cons hnone]
      exact h

/-- A word that does not stand in a declaration stands between the declarations. -/
theorem standsIn_of_not_covers (hname : isName (chars word) = true)
    (hfront : boundary ((chars front).getLast?.or before.head?) = true)
    (hbehind : boundary (chars behind).head? = true)
    (hprevious : boundary before.head? = true → boundary previous = true)
    (hcovers : covers (segmentsFrom before (front ++ (word ++ behind))) front.length = false) :
    StandsIn previous (chars word) (bodyFrom before (front ++ (word ++ behind))) := by
  generalize hall : front ++ (word ++ behind) = glyphs at hcovers ⊢
  obtain ⟨hne, hchars⟩ := isName_iff.1 hname
  fun_induction segmentsFrom before glyphs generalizing front previous with
  | case1 before =>
      obtain ⟨-, hword⟩ := List.append_eq_nil_iff.1 hall
      rw [(List.append_eq_nil_iff.1 hword).1] at hne
      exact absurd rfl hne
  | case2 before g tail declaration rest found ih =>
      rw [covers, Bool.or_eq_false_iff, decide_eq_false_iff_not, Nat.not_lt] at hcovers
      obtain ⟨hlength, hcovers⟩ := hcovers
      obtain ⟨hboundary, -⟩ := word?_of_declaration? found
      -- the word stands behind the declaration
      have hsplit : declaration.text ++ rest = front ++ (word ++ behind) :=
        (append_of_declaration? found).trans hall.symm
      obtain ⟨inner, rfl, hrest⟩ : ∃ inner, front = declaration.text ++ inner ∧
          rest = inner ++ (word ++ behind) := by
        rcases List.append_eq_append_iff.1 hsplit with
          ⟨inner, hfront, hrest⟩ | ⟨inner, htext, hrest⟩
        · exact ⟨inner, hfront, hrest⟩
        · have hinner : inner = [] := by
            rw [htext, List.length_append] at hlength
            exact List.length_eq_zero_iff.1 (by omega)
          subst hinner
          exact ⟨[], by simpa using htext.symm, by simpa using hrest.symm⟩
      rw [List.length_append, Nat.add_sub_cancel_left] at hcovers
      rw [chars_append, getLast?_append_or] at hfront
      rw [bodyFrom_of_declaration? found]
      refine ih ?_ (fun _ => hprevious hboundary) hrest.symm hcovers
      rwa [List.head?_append, List.head?_reverse]
  | case3 before g tail found ih =>
      cases front with
      | nil =>
          -- the word stands right here, and no declaration starts in it or right behind it
          cases word with
          | nil => exact absurd rfl hne
          | cons d word =>
              obtain rfl : d = g := (List.cons.inj hall).1
              obtain rfl : word ++ behind = tail := (List.cons.inj hall).2
              obtain ⟨hd, hword⟩ := List.forall_mem_cons.1 hchars
              have hinside : boundary (d.char :: before).head? = false := by
                simp [boundary_some, hd]
              rw [bodyFrom_cons found, bodyFrom_word hword hinside]
              exact ⟨[], _, rfl, hprevious hfront, boundary_bodyFrom _ hbehind⟩
      | cons d front =>
          obtain ⟨rfl, hrest⟩ := List.cons.inj hall
          rw [chars_cons, getLast?_cons_or] at hfront
          obtain ⟨front', behind', hbody, hlast, hend⟩ :=
            @ih (some d.char) front hfront id hrest hcovers
          rw [bodyFrom_cons found, hbody]
          exact ⟨d.char :: front', behind', rfl, by rwa [getLast?_cons_or], hend⟩

end Places

end MiniProgram.Source
