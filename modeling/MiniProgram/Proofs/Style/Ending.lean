import MiniProgram.Proofs.Style.Token

/-!
# Where white space ends a token

A token is read as far as it goes, so it depends on what stands behind it. Read `ReadsAs.of_space`
first: most tokens are read in front of white space whatever they were read in front of before.
The others are those that white space can belong to, which are addresses and escapes at the end of
names.
-/

namespace MiniProgram.Style

variable {text rest other : List Char} {c : Char}

/-- A text that is empty or starts with white space. -/
def SpaceLed (text : List Char) : Prop :=
  ∀ c ∈ text.head?, isSpace c = true

section Lengths

/-- A length that is the same in front of white space, if it does not go beyond the text. -/
def Steady (length : List Char → Nat) : Prop :=
  ∀ {text rest other : List Char}, SpaceLed other → '\\' ∉ text →
    length (text ++ rest) ≤ text.length → length (text ++ other) = length (text ++ rest)

/-- The white space characters. -/
def spaces : List Char :=
  [' ', '\t', '\n', '\r', '\x0c']

/-- There are five white space characters. -/
theorem isSpace_iff : isSpace c = true ↔ c ∈ spaces := by
  simp [isSpace, isFeed, spaces, or_assoc]

/-- White space is not in a class of characters that has none of the white space characters. -/
theorem eq_false_of_isSpace {isMember : Char → Bool} (hnone : spaces.any isMember = false)
    (h : isSpace c = true) : isMember c = false :=
  Bool.eq_false_iff.2 (List.any_eq_false.1 hnone c (isSpace_iff.1 h))

/-- What white space starts is not in such a class either. -/
theorem SpaceLed.any_head?_eq_false {isMember : Char → Bool} (h : SpaceLed other)
    (hnone : spaces.any isMember = false) : other.head?.any isMember = false := by
  cases other with
  | nil => rfl
  | cons c other => exact eq_false_of_isSpace hnone (h c rfl)

/-- Only a backslash starts an escape. -/
theorem startsEscape_of_ne (hc : c ≠ '\\') (rest : List Char) :
    startsEscape (c :: rest) = false := by
  unfold startsEscape
  split
  · next heq => exact absurd (List.cons.inj heq).1 hc
  · rfl

/-- White space starts no escape. -/
theorem SpaceLed.startsEscape_eq (h : SpaceLed other) : startsEscape other = false := by
  cases other with
  | nil => rfl
  | cons c other =>
      refine startsEscape_of_ne ?_ other
      rintro rfl
      exact absurd (h '\\' rfl) (by decide)

/-- Two lengths one behind the other are steady if each of them is. -/
theorem steady_followed {first second : List Char → Nat} (hfirst : Steady first)
    (hsecond : Steady second) : Steady (followed first second) := by
  intro text rest other hother htext hle
  unfold followed at hle ⊢
  have hlength : first (text ++ rest) ≤ text.length := by omega
  rw [List.drop_append_of_le_length hlength] at hle
  have hdrop : '\\' ∉ text.drop (first (text ++ rest)) :=
    fun hmem => htext (List.mem_of_mem_drop hmem)
  have hshort : second (text.drop (first (text ++ rest)) ++ rest) ≤
      (text.drop (first (text ++ rest))).length := by
    rw [List.length_drop]
    omega
  have hsame := hsecond hother hdrop hshort
  rw [hfirst hother htext hlength, List.drop_append_of_le_length hlength,
    List.drop_append_of_le_length hlength, hsame]

/-- White space starts no digits. -/
theorem SpaceLed.digitsLength_eq (h : SpaceLed other) : digitsLength other = 0 := by
  cases other with
  | nil => rfl
  | cons c other =>
      have hc : c.isDigit = false := eq_false_of_isSpace (by decide) (h c rfl)
      rw [digitsLength, List.takeWhile_cons_of_neg (by simp [hc])]
      rfl

/-- Digits are read as far in front of white space as anywhere. -/
theorem steady_digitsLength : Steady digitsLength := by
  intro text rest other hother htext hle
  have hstop := hother.digitsLength_eq
  unfold digitsLength at hle hstop ⊢
  rw [List.takeWhile_append] at hle ⊢
  rw [List.takeWhile_append]
  split at hle
  · next hall =>
      rw [List.length_append] at hle
      rw [if_pos hall, if_pos hall, List.length_append, List.length_append]
      omega
  · next hall => rw [if_neg hall, if_neg hall]

/-- White space starts no sign. -/
theorem SpaceLed.signLength_eq (h : SpaceLed other) : signLength other = 0 := by
  rw [signLength, h.any_head?_eq_false (by decide)]
  rfl

/-- A sign is the same in front of white space. -/
theorem steady_signLength : Steady signLength := by
  intro text rest other hother htext hle
  cases text with
  | nil =>
      have hnone : signLength rest = 0 := Nat.le_zero.1 hle
      exact hother.signLength_eq.trans hnone.symm
  | cons c text => rfl

/-- A fraction starts with a point. -/
theorem fractionLength_of_ne (hc : c ≠ '.') (rest : List Char) :
    fractionLength (c :: rest) = 0 := by
  unfold fractionLength
  split
  · next heq => exact absurd (List.cons.inj heq).1 hc
  · rfl

/-- White space starts no fraction. -/
theorem SpaceLed.fractionLength_eq (h : SpaceLed other) : fractionLength other = 0 := by
  cases other with
  | nil => rfl
  | cons c other =>
      refine fractionLength_of_ne ?_ other
      rintro rfl
      exact absurd (h '.' rfl) (by decide)

/-- A fraction is the same in front of white space. -/
theorem steady_fractionLength : Steady fractionLength := by
  intro text rest other hother htext hle
  cases text with
  | nil =>
      have hnone : fractionLength rest = 0 := Nat.le_zero.1 hle
      exact hother.fractionLength_eq.trans hnone.symm
  | cons c text =>
      by_cases hc : c = '.'
      · subst hc
        have hback : '\\' ∉ text := fun hmem => htext (List.mem_cons_of_mem _ hmem)
        rw [List.cons_append, List.cons_append, fractionLength, fractionLength] at *
        have hshort : digitsLength (text ++ rest) ≤ text.length := by
          rw [List.length_cons] at hle
          split at hle <;> omega
        rw [steady_digitsLength hother hback hshort]
      · rw [List.cons_append, List.cons_append, fractionLength_of_ne hc, fractionLength_of_ne hc]

/-- What stands behind the letter of an exponent. -/
theorem exponentLength_cons (c : Char) (rest : List Char) :
    exponentLength (c :: rest) =
      if (c = 'e' ∨ c = 'E') ∧ digitsLength (rest.drop (signLength rest)) ≠ 0 then
        signLength rest + digitsLength (rest.drop (signLength rest)) + 1
      else 0 := rfl

/-- White space starts no exponent. -/
theorem SpaceLed.exponentLength_eq (h : SpaceLed other) : exponentLength other = 0 := by
  cases other with
  | nil => rfl
  | cons c other =>
      rw [exponentLength_cons, if_neg]
      rintro ⟨rfl | rfl, -⟩
      · exact absurd (h 'e' rfl) (by decide)
      · exact absurd (h 'E' rfl) (by decide)

/-- An exponent is the same in front of white space. Its letter, its sign and its digits are looked
at one after the other, as each counts only if digits follow. -/
theorem steady_exponentLength : Steady exponentLength := by
  intro text rest other hother htext hle
  cases text with
  | nil =>
      have hnone : exponentLength rest = 0 := Nat.le_zero.1 hle
      exact hother.exponentLength_eq.trans hnone.symm
  | cons c text =>
      have hback : '\\' ∉ text := fun hmem => htext (List.mem_cons_of_mem _ hmem)
      rw [List.cons_append, exponentLength_cons] at hle ⊢
      rw [List.cons_append, exponentLength_cons]
      cases text with
      | nil =>
          rw [List.nil_append, List.length_singleton] at hle
          rw [List.nil_append, List.nil_append, hother.signLength_eq, List.drop_zero,
            hother.digitsLength_eq, if_neg (by simp), if_neg]
          rintro ⟨hletter, hdigits⟩
          rw [if_pos ⟨hletter, hdigits⟩] at hle
          omega
      | cons d text =>
          -- the sign is not behind the text, so the digits are the same ones
          have hsign : signLength (d :: text ++ other) = signLength (d :: text ++ rest) := rfl
          have hone : signLength (d :: text ++ rest) ≤ (d :: text).length := by
            rw [signLength, List.length_cons]
            split <;> omega
          have hdrop : '\\' ∉ (d :: text).drop (signLength (d :: text ++ rest)) :=
            fun hmem => hback (List.mem_of_mem_drop hmem)
          rw [List.drop_append_of_le_length hone] at hle
          rw [hsign, List.drop_append_of_le_length hone, List.drop_append_of_le_length hone]
          by_cases hletter : c = 'e' ∨ c = 'E'
          · have hshort : digitsLength ((d :: text).drop (signLength (d :: text ++ rest)) ++ rest) ≤
                ((d :: text).drop (signLength (d :: text ++ rest))).length := by
              rw [List.length_drop]
              refine Nat.not_lt.1 fun hlong => ?_
              rw [if_pos ⟨hletter, by omega⟩, List.length_cons] at hle
              omega
            rw [steady_digitsLength hother hdrop hshort]
          · rw [if_neg fun h => hletter h.1, if_neg fun h => hletter h.1]

/-- A name goes on with a character of names or with an escape. -/
theorem nameLength_cons (c : Char) (rest : List Char) :
    nameLength .plain (c :: rest) =
      if isNameChar c then nameLength .plain rest + 1
      else if startsEscape (c :: rest) then nameLength .escape rest + 1
      else 0 := rfl

/-- White space starts no name. -/
theorem SpaceLed.nameLength_eq (h : SpaceLed other) : nameLength .plain other = 0 := by
  cases other with
  | nil => rfl
  | cons c other =>
      have hc : isNameChar c = false := eq_false_of_isSpace (by decide) (h c rfl)
      rw [nameLength_cons, hc, h.startsEscape_eq]
      rfl

/-- A name without escapes is read as far in front of white space as anywhere. -/
theorem steady_nameLength : Steady (nameLength .plain) := by
  intro text rest other hother htext hle
  induction text with
  | nil =>
      have hnone : nameLength .plain rest = 0 := Nat.le_zero.1 hle
      exact hother.nameLength_eq.trans hnone.symm
  | cons c text ih =>
      obtain ⟨hc, htext⟩ : c ≠ '\\' ∧ '\\' ∉ text := by
        simpa [eq_comm] using htext
      rw [List.cons_append, nameLength_cons] at hle ⊢
      rw [List.cons_append, nameLength_cons, startsEscape_of_ne hc, startsEscape_of_ne hc]
      split at hle
      · next hname =>
          rw [List.length_cons] at hle
          rw [if_pos hname, if_pos hname, ih htext (by omega)]
      · next hname =>
          rw [if_neg hname, if_neg hname, if_neg Bool.false_ne_true, if_neg Bool.false_ne_true]

/-- The digits of a number with its fraction are the same in front of white space. -/
theorem steady_mantissaLength : Steady mantissaLength :=
  steady_followed steady_digitsLength steady_fractionLength

/-- A number is the same in front of white space. -/
theorem steady_numberLength : Steady numberLength :=
  steady_followed steady_signLength (steady_followed steady_mantissaLength steady_exponentLength)

end Lengths

section Bounds

/-- A length that does not go beyond the text. -/
def Bounded (length : List Char → Nat) : Prop :=
  ∀ text, length text ≤ text.length

/-- Two lengths one behind the other stay within the text if each of them does. -/
theorem bounded_followed {first second : List Char → Nat} (hfirst : Bounded first)
    (hsecond : Bounded second) : Bounded (followed first second) := by
  intro text
  have hle := hfirst text
  have hle' := hsecond (text.drop (first text))
  rw [List.length_drop] at hle'
  rw [followed]
  omega

/-- Digits stay within the text. -/
theorem bounded_digitsLength : Bounded digitsLength :=
  fun _ => (List.takeWhile_prefix _).length_le

/-- A sign stays within the text. -/
theorem bounded_signLength : Bounded signLength := by
  intro text
  cases text with
  | nil => exact Nat.le_refl 0
  | cons c text =>
      rw [signLength, List.length_cons]
      split <;> omega

/-- A fraction stays within the text. -/
theorem bounded_fractionLength : Bounded fractionLength := by
  intro text
  unfold fractionLength
  split
  · next rest =>
      have hle := bounded_digitsLength rest
      rw [List.length_cons]
      split <;> omega
  · exact Nat.zero_le _

/-- An exponent stays within the text. -/
theorem bounded_exponentLength : Bounded exponentLength := by
  intro text
  cases text with
  | nil => exact Nat.le_refl 0
  | cons c rest =>
      have hle := bounded_followed bounded_signLength bounded_digitsLength rest
      rw [followed] at hle
      rw [exponentLength_cons, List.length_cons]
      split <;> omega

/-- A number stays within the text. -/
theorem bounded_numberLength : Bounded numberLength :=
  bounded_followed bounded_signLength
    (bounded_followed (bounded_followed bounded_digitsLength bounded_fractionLength)
      bounded_exponentLength)

/-- A name stays within the text, from whatever phase it is read. -/
theorem bounded_nameLength (phase : Phase) : Bounded (nameLength phase) := by
  intro text
  induction text generalizing phase with
  | nil => exact Nat.le_refl 0
  | cons c text ih =>
      rw [nameLength, List.length_cons]
      split
      · exact Nat.succ_le_succ (ih _)
      · split
        · exact Nat.succ_le_succ (ih _)
        · split
          · exact Nat.succ_le_succ (ih _)
          · exact Nat.zero_le _

/-- A number with its unit stays within the text. -/
theorem bounded_readNumber : Bounded fun text => (readNumber text).2 := by
  intro text
  have hnumber := bounded_numberLength text
  have hname := bounded_nameLength .plain (text.drop (numberLength text))
  rw [List.length_drop] at hname
  show (readNumber text).2 ≤ text.length
  rw [readNumber]
  split
  · show numberLength text + _ ≤ _
    omega
  · split
    · next hpercent =>
        have hlength : 0 < (text.drop (numberLength text)).length :=
          List.length_pos_iff.2 fun hnil => by rw [hnil] at hpercent; cases hpercent
        rw [List.length_drop] at hlength
        show numberLength text + 1 ≤ _
        omega
    · exact hnumber

/-- A string stays within the text, whether it is closed or broken. -/
theorem bounded_readString (quote : Char) (phase : Phase) :
    Bounded fun text => (readString quote phase text).2 := by
  intro text
  show (readString quote phase text).2 ≤ text.length
  induction text generalizing phase with
  | nil => exact Nat.le_refl 0
  | cons c text ih =>
      rw [readString, List.length_cons]
      split
      · exact Nat.succ_le_succ (ih _)
      · split
        · exact Nat.le_add_left 1 _
        · split
          · exact Nat.zero_le _
          · exact Nat.succ_le_succ (ih _)

end Bounds

section Starts

/-- Characters that are no white space start a text with white space at its end only if they stand
in front of the white space. -/
theorem isPrefixOf_append_space {start : List Char} (hother : SpaceLed other)
    (hstart : start.any isSpace = false) :
    start.isPrefixOf (text ++ other) = start.isPrefixOf text := by
  rw [Bool.eq_iff_iff, List.isPrefixOf_iff_prefix, List.isPrefixOf_iff_prefix]
  refine ⟨fun h => ?_, fun h => h.trans (List.prefix_append _ _)⟩
  rcases List.prefix_or_prefix_of_prefix h (List.prefix_append text other) with hin | ⟨behind, rfl⟩
  · exact hin
  · cases behind with
    | nil => simp
    | cons c behind =>
        obtain ⟨last, hlast⟩ := (List.prefix_append_right_inj text).1 h
        have hspace : isSpace c = true := hother c (by rw [← hlast]; rfl)
        exact absurd hspace (List.any_eq_false.1 hstart c (by simp))

/-- What may start a name may stand in it. -/
theorem isNameChar_of_isNameStart (h : isNameStart c = true) : isNameChar c = true := by
  rw [isNameChar, h]
  rfl

/-- Something of a name is read exactly if one can start or go on. -/
theorem nameLength_ne_zero_iff : nameLength .plain text ≠ 0 ↔ startsNamePart text = true := by
  cases text with
  | nil => simp [nameLength, startsNamePart, startsEscape]
  | cons c text =>
      rw [nameLength_cons, startsNamePart, List.head?_cons, Option.any_some]
      cases isNameChar c <;> cases startsEscape (c :: text) <;> simp

/-- A name is a part of a name. -/
theorem startsNamePart_of_startsName (h : startsName text = true) : startsNamePart text = true := by
  cases text with
  | nil => cases h
  | cons c text =>
      rw [startsName, Bool.or_eq_true, Bool.or_eq_true, Bool.and_eq_true, decide_eq_true_eq] at h
      rw [startsNamePart, List.head?_cons, Option.any_some, Bool.or_eq_true]
      rcases h with (hname | hescape) | ⟨rfl, -⟩
      · exact .inr (isNameChar_of_isNameStart hname)
      · exact .inl hescape
      · exact .inr rfl

/-- What makes a hyphen the start of a name goes on with the name. -/
theorem startsNamePart_of_hyphen
    (h : (startsEscape text || text.head?.any fun c => isNameStart c || c = '-') = true) :
    startsNamePart text = true := by
  cases text with
  | nil => cases h
  | cons c text =>
      rw [Bool.or_eq_true, List.head?_cons, Option.any_some, Bool.or_eq_true,
        decide_eq_true_eq] at h
      rw [startsNamePart, List.head?_cons, Option.any_some, Bool.or_eq_true]
      refine h.imp_right fun hc => ?_
      rcases hc with hname | rfl
      · exact isNameChar_of_isNameStart hname
      · rfl

/-- The start of a name is seen from two characters, if there is no backslash. -/
theorem startsName_append {d : Char} (htext : '\\' ∉ c :: d :: text) (rest : List Char) :
    startsName (c :: d :: text ++ rest) =
      (isNameStart c || c = '-' && (isNameStart d || d = '-')) := by
  have hc : c ≠ '\\' := fun heq => htext (by simp [heq])
  have hd : d ≠ '\\' := fun heq => htext (by simp [heq])
  rw [List.cons_append, List.cons_append, startsName, startsEscape_of_ne hc, startsEscape_of_ne hd]
  simp

/-- In front of white space one character starts a name only by itself. -/
theorem startsName_singleton_append (hc : c ≠ '\\') (hother : SpaceLed other) :
    startsName ([c] ++ other) = isNameStart c := by
  rw [List.singleton_append, startsName, startsEscape_of_ne hc, hother.startsEscape_eq,
    hother.any_head?_eq_false (by decide)]
  simp

/-- What starts a name in front of white space starts one in front of everything. -/
theorem startsName_of_space (hother : SpaceLed other) (htext : '\\' ∉ text)
    (h : startsName (text ++ other) = true) (rest : List Char) :
    startsName (text ++ rest) = true := by
  obtain _ | ⟨c, _ | ⟨d, text⟩⟩ := text
  · have hnone := hother.nameLength_eq
    exact absurd hnone (nameLength_ne_zero_iff.2 (startsNamePart_of_startsName h))
  · rw [startsName_singleton_append (fun heq => htext (by simp [heq])) hother] at h
    rw [List.singleton_append, startsName, h]
    rfl
  · rwa [startsName_append htext] at h ⊢

/-- A whole name starts a name in front of white space too. -/
theorem startsName_space (hother : SpaceLed other) (htext : '\\' ∉ text)
    (hlength : nameLength .plain (text ++ rest) = text.length)
    (h : startsName (text ++ rest) = true) : startsName (text ++ other) = true := by
  obtain _ | ⟨c, _ | ⟨d, text⟩⟩ := text
  · exact absurd hlength (nameLength_ne_zero_iff.2 (startsNamePart_of_startsName h))
  · have hc : c ≠ '\\' := fun heq => htext (by simp [heq])
    rw [startsName_singleton_append hc hother]
    rw [List.singleton_append] at hlength h
    rw [startsName, startsEscape_of_ne hc, Bool.or_false, Bool.or_eq_true, Bool.and_eq_true] at h
    rcases h with hname | ⟨hdash, hrest⟩
    · exact hname
    · -- the hyphen alone is no name, so the name would go on
      obtain rfl := of_decide_eq_true hdash
      rw [nameLength_cons, if_pos (by decide), List.length_singleton] at hlength
      have hpart : startsNamePart rest = true := startsNamePart_of_hyphen hrest
      exact absurd (Nat.succ.inj hlength) (nameLength_ne_zero_iff.2 hpart)
  · rwa [startsName_append htext] at h ⊢

/-- What can start or go on a name in front of white space can in front of everything. -/
theorem startsNamePart_of_space (hother : SpaceLed other) (htext : '\\' ∉ text)
    (h : startsNamePart (text ++ other) = true) (rest : List Char) :
    startsNamePart (text ++ rest) = true := by
  rw [← nameLength_ne_zero_iff] at h ⊢
  intro hnone
  rw [steady_nameLength hother htext (by rw [hnone]; exact Nat.zero_le _)] at h
  exact h hnone

/-- The lengths of the parts of a number add up. -/
theorem numberLength_eq (text : List Char) :
    numberLength text = signLength text +
      (mantissaLength (text.drop (signLength text)) +
        exponentLength ((text.drop (signLength text)).drop
          (mantissaLength (text.drop (signLength text))))) := rfl

/-- A number that starts has a length. -/
theorem ne_zero_of_startsNumber (h : startsNumber text = true) : numberLength text ≠ 0 := by
  have hmantissa := of_decide_eq_true h
  rw [numberLength_eq]
  omega

/-- White space starts no number. -/
theorem SpaceLed.startsNumber_eq (h : SpaceLed other) : startsNumber other = false := by
  rw [startsNumber, h.signLength_eq, List.drop_zero, mantissaLength, followed, h.digitsLength_eq,
    List.drop_zero, h.fractionLength_eq]
  rfl

/-- Whether a number starts is the same in front of white space, if it does not go beyond the
text. -/
theorem startsNumber_append (hother : SpaceLed other) (htext : '\\' ∉ text)
    (hle : startsNumber (text ++ rest) = true → numberLength (text ++ rest) ≤ text.length) :
    startsNumber (text ++ other) = startsNumber (text ++ rest) := by
  cases text with
  | nil =>
      rw [List.nil_append, List.nil_append] at *
      rw [hother.startsNumber_eq, eq_comm, Bool.eq_false_iff]
      exact fun hstart => ne_zero_of_startsNumber hstart (Nat.le_zero.1 (hle hstart))
  | cons c text =>
      have hsign : signLength (c :: text ++ other) = signLength (c :: text ++ rest) := rfl
      have hone : signLength (c :: text ++ rest) ≤ (c :: text).length := by
        rw [signLength, List.length_cons]
        split <;> omega
      have hdrop : '\\' ∉ (c :: text).drop (signLength (c :: text ++ rest)) :=
        fun hmem => htext (List.mem_of_mem_drop hmem)
      have hshort : mantissaLength ((c :: text).drop (signLength (c :: text ++ rest)) ++ rest) ≤
          ((c :: text).drop (signLength (c :: text ++ rest))).length := by
        rw [← List.drop_append_of_le_length hone, List.length_drop]
        by_cases hzero : mantissaLength ((c :: text ++ rest).drop
            (signLength (c :: text ++ rest))) = 0
        · omega
        · have hlength := hle (decide_eq_true hzero)
          rw [numberLength_eq] at hlength
          omega
      rw [startsNumber, startsNumber, hsign, List.drop_append_of_le_length hone,
        List.drop_append_of_le_length hone, steady_mantissaLength hother hdrop hshort]

end Starts

section Reading

variable {kind : Kind} {quote : Char} {phase : Phase} {count : Nat}

/-- What is read with `n` more characters has the same kind. -/
theorem more_eq_iff {found : Kind × Nat} {n : Nat} :
    more n found = (kind, count) ↔ ∃ k, found = (kind, k) ∧ count = k + n := by
  obtain ⟨found, k⟩ := found
  simp only [more, Prod.mk.injEq]
  constructor
  · rintro ⟨rfl, rfl⟩
    exact ⟨k, ⟨rfl, rfl⟩, rfl⟩
  · rintro ⟨_, ⟨rfl, rfl⟩, rfl⟩
    exact ⟨rfl, rfl⟩

/-- One step of reading a string: an escape goes on, and otherwise the quotation mark closes the
string, a line feed breaks it, and every other character belongs to it. -/
theorem readString_cons (quote : Char) (phase : Phase) (c : Char) (rest : List Char) :
    readString quote phase (c :: rest) =
      match phase.next? c with
      | some next => more 1 (readString quote next rest)
      | none =>
        if c = quote then (.string, 1)
        else if isFeed c then (.brokenString, 0)
        else more 1 (readString quote (if c = '\\' then .escape else .plain) rest) := rfl

/-- A string holds a quotation mark. -/
theorem ne_zero_of_readString (h : readString quote phase text = (.string, count)) : count ≠ 0 := by
  cases text with
  | nil => cases h
  | cons c rest =>
      rw [readString_cons] at h
      split at h
      · obtain ⟨_, -, rfl⟩ := more_eq_iff.1 h
        omega
      · split at h
        · cases h
          omega
        · split at h
          · cases h
          · obtain ⟨_, -, rfl⟩ := more_eq_iff.1 h
            omega

/-- A string ends at its quotation mark, whatever stands behind. -/
theorem readString_append (h : readString quote phase (text ++ rest) = (.string, count))
    (hle : count ≤ text.length) (other : List Char) :
    readString quote phase (text ++ other) = (.string, count) := by
  induction text generalizing phase count with
  | nil => exact absurd (Nat.le_zero.1 hle) (ne_zero_of_readString h)
  | cons c text ih =>
      rw [List.cons_append, readString_cons] at h ⊢
      rw [List.length_cons] at hle
      cases hnext : phase.next? c with
      | some next =>
          simp only [hnext] at h ⊢
          obtain ⟨k, hk, rfl⟩ := more_eq_iff.1 h
          exact more_eq_iff.2 ⟨k, ih hk (by omega), rfl⟩
      | none =>
          simp only [hnext] at h ⊢
          split at h
          · next hquote => rwa [if_pos hquote]
          · next hquote =>
              rw [if_neg hquote]
              split at h
              · cases h
              · next hfeed =>
                  obtain ⟨k, hk, rfl⟩ := more_eq_iff.1 h
                  rw [if_neg hfeed]
                  exact more_eq_iff.2 ⟨k, ih hk (by omega), rfl⟩

/-- A number is not longer than the number with its unit. -/
theorem numberLength_le_readNumber (text : List Char) :
    numberLength text ≤ (readNumber text).2 := by
  rw [readNumber]
  split
  · exact Nat.le_add_right _ _
  · split
    · exact Nat.le_succ _
    · exact Nat.le_refl _

/-- A number is read with its unit in front of white space. -/
theorem readNumber_space (hother : SpaceLed other) (htext : '\\' ∉ text)
    (h : readNumber (text ++ rest) = (kind, text.length)) :
    readNumber (text ++ other) = (kind, text.length) := by
  have hle : numberLength (text ++ rest) ≤ text.length := by
    rw [← show (readNumber (text ++ rest)).2 = text.length by rw [h]]
    exact numberLength_le_readNumber _
  have hsame := steady_numberLength hother htext hle
  have hunit : '\\' ∉ text.drop (numberLength (text ++ rest)) :=
    fun hmem => htext (List.mem_of_mem_drop hmem)
  have hlength := List.length_drop (i := numberLength (text ++ rest)) (l := text)
  rw [readNumber, List.drop_append_of_le_length hle] at h
  rw [readNumber, hsame, List.drop_append_of_le_length hle]
  generalize text.drop (numberLength (text ++ rest)) = unit at *
  generalize numberLength (text ++ rest) = count at *
  by_cases hname : startsName (unit ++ rest) = true
  · rw [if_pos hname] at h
    obtain ⟨rfl, hcount⟩ := Prod.mk.inj h
    have hwhole : nameLength .plain (unit ++ rest) = unit.length := by omega
    rw [if_pos (startsName_space hother hunit hwhole hname),
      steady_nameLength hother hunit (Nat.le_of_eq hwhole), hcount]
  · rw [if_neg hname] at h
    rw [if_neg fun hspace => hname (startsName_of_space hother hunit hspace rest)]
    have hhead : (unit ++ other).head? = some '%' ↔ (unit ++ rest).head? = some '%' := by
      cases unit with
      | nil =>
          refine iff_of_false (fun hspace => absurd (hother '%' hspace) (by decide))
            fun hpercent => ?_
          rw [List.nil_append] at h hpercent
          rw [if_pos hpercent, Prod.mk.injEq] at h
          rw [List.length_nil] at hlength
          omega
      | cons c unit => rfl
    simpa only [hhead] using h

/-- What is read as an address is one, or is broken. -/
theorem kind_readUrl (phase : Phase) (text : List Char) :
    (readUrl phase text).1 = .url ∨ (readUrl phase text).1 = .brokenUrl := by
  induction text generalizing phase with
  | nil => exact .inl rfl
  | cons c text ih =>
      have hmore : ∀ next, (more 1 (readUrl next text)).1 = .url ∨
          (more 1 (readUrl next text)).1 = .brokenUrl := ih
      rw [readUrl]
      split
      · exact hmore _
      · split
        · exact .inl rfl
        · split
          · split
            · exact .inl rfl
            · exact .inl rfl
            · exact .inr rfl
          · split
            · exact hmore _
            · split
              · exact .inr rfl
              · exact hmore _

/-- What is read as a name is a name, a function or an address. -/
theorem readWord_cases (text : List Char) :
    readWord text = (.word, nameLength .plain text) ∧
        (text.drop (nameLength .plain text)).head? ≠ some '(' ∨
      (readWord text).1 = .function ∨ (readWord text).1 = .url ∨
        (readWord text).1 = .brokenUrl := by
  rw [readWord]
  split
  · refine .inr ?_
    split
    · exact .inl rfl
    · exact .inr (kind_readUrl _ _)
  · next hrest =>
      refine .inl ⟨rfl, fun hhead => ?_⟩
      obtain ⟨rest, htext⟩ := List.head?_eq_some_iff.1 hhead
      exact hrest rest htext

/-- A name is read in front of white space. -/
theorem readWord_space (hother : SpaceLed other) (htext : '\\' ∉ text)
    (h : readWord (text ++ rest) = (.word, text.length)) :
    readWord (text ++ other) = (.word, text.length) := by
  have hlength : nameLength .plain (text ++ rest) = text.length := by
    rcases readWord_cases (text ++ rest) with ⟨hword, -⟩ | hkind | hkind | hkind
    · rw [hword] at h
      exact (Prod.mk.inj h).2
    all_goals
      rw [h] at hkind
      cases hkind
  rw [readWord, steady_nameLength hother htext (Nat.le_of_eq hlength), hlength, List.drop_left]
  split
  · exact absurd (hother '(' rfl) (by decide)
  · rfl

/-- A kind of token that is over where white space starts. -/
def Kind.endsAtSpace : Kind → Bool
  | .brokenString | .function | .url | .brokenUrl => false
  | _ => true

/-- What is read by a reader without backslashes is read in front of white space too, and nothing
is if nothing was. -/
structure Settled (read : List Char → Option (Kind × Nat)) : Prop where
  none_of_space : ∀ {text rest other : List Char}, SpaceLed other → '\\' ∉ text →
    read (text ++ rest) = none → read (text ++ other) = none
  some_of_space : ∀ {text rest other : List Char} {kind : Kind}, SpaceLed other → '\\' ∉ text →
    kind.endsAtSpace = true → read (text ++ rest) = some (kind, text.length) →
      read (text ++ other) = some (kind, text.length)
  bounds : ∀ {text : List Char} {kind : Kind} {count : Nat}, kind.endsAtSpace = true →
    read text = some (kind, count) → 0 < count ∧ count ≤ text.length

/-- A reader of fixed characters is settled if white space is none of them. -/
theorem settled_fixed? (kind : Kind) {start : List Char} (hne : start ≠ [])
    (hstart : start.any isSpace = false) : Settled (fixed? kind start) where
  none_of_space := by
    intro text rest other hother hbackslash h
    unfold fixed? at h ⊢
    split at h
    · cases h
    · next hnot =>
        rw [if_neg]
        intro hin
        rw [isPrefixOf_append_space hother hstart] at hin
        exact hnot (List.isPrefixOf_iff_prefix.2
          ((List.isPrefixOf_iff_prefix.1 hin).trans (List.prefix_append _ rest)))
  some_of_space := by
    intro text rest other kind hother hbackslash hends h
    unfold fixed? at h ⊢
    split at h
    · next hin =>
        have hlength : start.length = text.length := (Prod.mk.inj (Option.some.inj h)).2
        have hwhole := List.prefix_of_prefix_length_le (List.isPrefixOf_iff_prefix.1 hin)
          (List.prefix_append text rest) (Nat.le_of_eq hlength)
        rw [if_pos (List.isPrefixOf_iff_prefix.2 (hwhole.trans (List.prefix_append _ other)))]
        exact h
    · cases h
  bounds := by
    intro text kind count hends h
    unfold fixed? at h
    split at h
    · next hin =>
        obtain rfl := (Prod.mk.inj (Option.some.inj h)).2
        exact ⟨List.length_pos_iff.2 hne, (List.isPrefixOf_iff_prefix.1 hin).length_le⟩
    · cases h

/-- The reader of numbers is settled. -/
theorem settled_number? : Settled number? where
  none_of_space := by
    intro text rest other hother hbackslash h
    unfold number? at h ⊢
    split at h
    · cases h
    · next hnot =>
        rw [startsNumber_append hother hbackslash fun hstart => absurd hstart hnot, if_neg hnot]
  some_of_space := by
    intro text rest other kind hother hbackslash hends h
    unfold number? at h ⊢
    split at h
    · next hstart =>
        have hread := Option.some.inj h
        have hle := numberLength_le_readNumber (text ++ rest)
        rw [hread] at hle
        rw [startsNumber_append hother hbackslash fun _ => hle, if_pos hstart,
          readNumber_space hother hbackslash hread]
    · cases h
  bounds := by
    intro text kind count hends h
    unfold number? at h
    split at h
    · next hstart =>
        have hread := Option.some.inj h
        have hle := numberLength_le_readNumber text
        have hne := ne_zero_of_startsNumber hstart
        have hlength : (readNumber text).2 ≤ text.length := bounded_readNumber text
        rw [hread] at hle hlength
        exact ⟨by omega, hlength⟩
    · cases h

/-- What is read as a name in front of white space is one. -/
theorem eq_of_readWord {kind : Kind} (hends : kind.endsAtSpace = true)
    (h : readWord text = (kind, count)) : kind = .word ∧ count = nameLength .plain text := by
  rcases readWord_cases text with ⟨hword, -⟩ | hkind | hkind | hkind
  · rw [hword] at h
    cases h
    exact ⟨rfl, rfl⟩
  all_goals
    rw [h] at hkind
    obtain rfl := hkind
    cases hends

/-- The reader of names is settled. -/
theorem settled_word? : Settled word? where
  none_of_space := by
    intro text rest other hother hbackslash h
    unfold word? at h ⊢
    split at h
    · cases h
    · next hnot =>
        rw [if_neg fun hin => hnot (startsName_of_space hother hbackslash hin rest)]
  some_of_space := by
    intro text rest other kind hother hbackslash hends h
    unfold word? at h ⊢
    split at h
    · next hstart =>
        have hread := Option.some.inj h
        obtain ⟨rfl, hlength⟩ := eq_of_readWord hends hread
        rw [if_pos (startsName_space hother hbackslash hlength.symm hstart),
          readWord_space hother hbackslash hread]
    · cases h
  bounds := by
    intro text kind count hends h
    unfold word? at h
    split at h
    · next hstart =>
        obtain ⟨-, rfl⟩ := eq_of_readWord hends (Option.some.inj h)
        have hne := nameLength_ne_zero_iff.2 (startsNamePart_of_startsName hstart)
        exact ⟨Nat.pos_of_ne_zero hne, bounded_nameLength .plain text⟩
    · cases h

/-- The start of a name, or of a part of one, as it is tested for behind a mark. -/
structure Leads (starts : List Char → Bool) : Prop where
  of_space : ∀ {text other : List Char}, SpaceLed other → '\\' ∉ text →
    starts (text ++ other) = true → ∀ rest, starts (text ++ rest) = true
  space : ∀ {text rest other : List Char}, SpaceLed other → '\\' ∉ text →
    nameLength .plain (text ++ rest) = text.length → starts (text ++ rest) = true →
      starts (text ++ other) = true

/-- The test for the start of a name looks at nothing behind white space. -/
theorem leads_startsName : Leads startsName :=
  ⟨startsName_of_space, startsName_space⟩

/-- The test for a part of a name looks at nothing behind white space. -/
theorem leads_startsNamePart : Leads startsNamePart where
  of_space := startsNamePart_of_space
  space := by
    intro text rest other hother hbackslash hlength h
    rw [← nameLength_ne_zero_iff] at h ⊢
    rwa [steady_nameLength hother hbackslash (Nat.le_of_eq hlength)]

/-- A reader of a mark with a name behind it is settled if its test for the name is. -/
theorem settled_marked? (kind : Kind) {mark : Char} {starts : List Char → Bool}
    (hmark : isSpace mark = false) (hstarts : Leads starts) :
    Settled (marked? kind mark starts) where
  none_of_space := by
    intro text rest other hother hbackslash h
    cases text with
    | nil =>
        cases other with
        | nil => rfl
        | cons c other =>
            refine if_neg fun hin => ?_
            have hspace := hother c rfl
            rw [hin.1, hmark] at hspace
            cases hspace
    | cons c text =>
        have hback : '\\' ∉ text := fun hmem => hbackslash (List.mem_cons_of_mem _ hmem)
        rw [List.cons_append, marked?] at h ⊢
        split at h
        · cases h
        · next hnot =>
            rw [if_neg fun hin => hnot ⟨hin.1, hstarts.of_space hother hback hin.2 rest⟩]
  some_of_space := by
    intro text rest other kind hother hbackslash hends h
    cases text with
    | nil =>
        unfold marked? at h
        split at h
        · cases h
        · split at h <;> cases h
    | cons c text =>
        have hback : '\\' ∉ text := fun hmem => hbackslash (List.mem_cons_of_mem _ hmem)
        rw [List.cons_append, marked?] at h ⊢
        split at h
        · next hin =>
            obtain ⟨hkind, hcount⟩ := Prod.mk.inj (Option.some.inj h)
            have hlength : nameLength .plain (text ++ rest) = text.length := Nat.succ.inj hcount
            rw [if_pos ⟨hin.1, hstarts.space hother hback hlength hin.2⟩,
              steady_nameLength hother hback (Nat.le_of_eq hlength)]
            exact h
        · cases h
  bounds := by
    intro text kind count hends h
    unfold marked? at h
    split at h
    · cases h
    · next c rest =>
        split at h
        · obtain ⟨-, rfl⟩ := Prod.mk.inj (Option.some.inj h)
          exact ⟨Nat.succ_pos _, Nat.succ_le_succ (bounded_nameLength .plain rest)⟩
        · cases h

/-- Every reader of tokens is settled. -/
theorem settled_of_mem_readers : ∀ read ∈ readers, Settled read := by
  simp only [readers, List.mem_cons, List.not_mem_nil, or_false]
  rintro read (rfl | rfl | rfl | rfl | rfl | rfl)
  · exact settled_marked? .hash (by decide) leads_startsNamePart
  · exact settled_number?
  · exact settled_fixed? .closing (by decide) (by decide)
  · exact settled_word?
  · exact settled_fixed? .opening (by decide) (by decide)
  · exact settled_marked? .atWord (by decide) leads_startsName

/-- Settled readers are tried in the same order to the same end in front of white space: those that
refuse still refuse, and the one that reads still reads the same. -/
theorem findSome?_space {readers : List (List Char → Option (Kind × Nat))}
    (hsettled : ∀ read ∈ readers, Settled read) (hother : SpaceLed other) (hbackslash : '\\' ∉ text)
    (hends : kind.endsAtSpace = true)
    (h : (readers.findSome? fun read => read (text ++ rest)).getD (.mark, 1) =
      (kind, text.length)) :
    (readers.findSome? fun read => read (text ++ other)).getD (.mark, 1) = (kind, text.length) := by
  induction readers with
  | nil => exact h
  | cons read readers ih =>
      obtain ⟨hread, hreaders⟩ := List.forall_mem_cons.1 hsettled
      rw [List.findSome?_cons] at h ⊢
      cases hfound : read (text ++ rest) with
      | none =>
          rw [hfound] at h
          rw [hread.none_of_space hother hbackslash hfound]
          exact ih hreaders h
      | some found =>
          rw [hfound] at h
          obtain rfl : found = (kind, text.length) := h
          rw [hread.some_of_space hother hbackslash hends hfound]
          rfl

/-- What the first reader reads is not empty and stays within the text. If all refuse, then one
character is read. -/
theorem findSome?_bounds {readers : List (List Char → Option (Kind × Nat))}
    (hsettled : ∀ read ∈ readers, Settled read) (hends : kind.endsAtSpace = true) (hne : text ≠ [])
    (h : (readers.findSome? fun read => read text).getD (.mark, 1) = (kind, count)) :
    0 < count ∧ count ≤ text.length := by
  induction readers with
  | nil =>
      obtain ⟨-, rfl⟩ := Prod.mk.inj h
      exact ⟨Nat.one_pos, List.length_pos_iff.2 hne⟩
  | cons read readers ih =>
      obtain ⟨hread, hreaders⟩ := List.forall_mem_cons.1 hsettled
      rw [List.findSome?_cons] at h
      cases hfound : read text with
      | none =>
          rw [hfound] at h
          exact ih hreaders h
      | some found =>
          rw [hfound] at h
          obtain rfl : found = (kind, count) := h
          exact hread.bounds hends hfound

/-- A string, or a token without backslash that is no address and has no parenthesis. -/
def Token.endsAtSpace (token : Token) : Bool :=
  token.kind.endsAtSpace && (token.text.head?.any isQuote || !token.text.contains '\\')

/-- What is read as a string is one, or is broken. -/
theorem kind_readString (quote : Char) (phase : Phase) (text : List Char) :
    (readString quote phase text).1 = .string ∨
      (readString quote phase text).1 = .brokenString := by
  induction text generalizing phase with
  | nil => exact .inr rfl
  | cons c text ih =>
      rw [readString]
      split
      · exact ih _
      · split
        · exact .inl rfl
        · split
          · exact .inr rfl
          · exact ih _

/-- A quotation mark starts a string. -/
theorem readToken_of_quote (hquote : isQuote c = true) (rest : List Char) :
    readToken (c :: rest) = more 1 (readString c .plain rest) := by
  rw [readToken, string?, if_pos hquote]
  rfl

/-- Without a quotation mark the readers are tried in order, and a character that none takes is a
mark. -/
theorem readToken_of_not_quote (hquote : ¬ isQuote c = true) (rest : List Char) :
    readToken (c :: rest) = (readers.findSome? fun read => read (c :: rest)).getD (.mark, 1) := by
  rw [readToken, string?, if_neg hquote]
  rfl

/-- A token that ends at white space is not longer than the text. -/
theorem readToken_bounds (hends : kind.endsAtSpace = true)
    (h : readToken (c :: rest) = (kind, count)) : 0 < count ∧ count ≤ rest.length + 1 := by
  by_cases hquote : isQuote c = true
  · rw [readToken_of_quote hquote] at h
    obtain ⟨k, hk, rfl⟩ := more_eq_iff.1 h
    have hle : (readString c .plain rest).2 ≤ rest.length := bounded_readString c .plain rest
    rw [hk] at hle
    exact ⟨Nat.succ_pos _, Nat.succ_le_succ hle⟩
  · rw [readToken_of_not_quote hquote] at h
    exact findSome?_bounds settled_of_mem_readers hends (List.cons_ne_nil _ _) h

/-- What is read as a whole token is read in front of white space too. -/
theorem readToken_space (hother : SpaceLed other)
    (hends : (⟨kind, c :: text⟩ : Token).endsAtSpace = true)
    (h : readToken (c :: (text ++ rest)) = (kind, text.length + 1)) :
    readToken (c :: (text ++ other)) = (kind, text.length + 1) := by
  obtain ⟨hkind, htext⟩ := Bool.and_eq_true_iff.1 hends
  by_cases hquote : isQuote c = true
  · rw [readToken_of_quote hquote] at h ⊢
    obtain ⟨k, hk, hcount⟩ := more_eq_iff.1 h
    obtain rfl : text.length = k := Nat.succ.inj hcount
    obtain rfl : kind = .string := by
      rcases kind_readString c .plain (text ++ rest) with hstring | hbroken
      · rw [hk] at hstring
        exact hstring
      · rw [hk] at hbroken
        obtain rfl : kind = .brokenString := hbroken
        cases hkind
    rw [readString_append hk (Nat.le_refl _) other]
    rfl
  · have hbackslash : '\\' ∉ c :: text := by
      simpa [hquote] using htext
    rw [readToken_of_not_quote hquote] at h ⊢
    exact findSome?_space settled_of_mem_readers hother hbackslash hkind h

/-- No comment starts with one character and white space. -/
theorem startsComment_space (hother : SpaceLed other) : startsComment (c :: other) = false := by
  unfold startsComment
  split
  · next heq =>
      obtain ⟨-, rfl⟩ := List.cons.inj heq
      exact absurd (hother '*' rfl) (by decide)
  · rfl

/-- Two characters tell whether a comment starts. -/
theorem startsComment_cons_cons {d : Char} (h : startsComment (c :: d :: text) = false)
    (other : List Char) : startsComment (c :: d :: other) = false := by
  unfold startsComment
  split
  · next heq =>
      obtain ⟨rfl, htail⟩ := List.cons.inj heq
      obtain ⟨rfl, -⟩ := List.cons.inj htail
      cases h
  · rfl

/-- A token without text is never read. -/
theorem not_readsAs_nil : ¬ (⟨kind, []⟩ : Token).ReadsAs rest := by
  intro h
  cases rest with
  | nil => cases h
  | cons c rest =>
      obtain ⟨front, hfront, -⟩ := exists_text_pieceAt c rest
      rw [Option.some.inj h] at hfront
      cases hfront

/-- When a token is read. -/
theorem readsAs_cons_iff (hends : kind.endsAtSpace = true) :
    (⟨kind, c :: text⟩ : Token).ReadsAs rest ↔
      isSpace c = false ∧ startsComment (c :: (text ++ rest)) = false ∧
        readToken (c :: (text ++ rest)) = (kind, text.length + 1) := by
  show some (pieceAt c (text ++ rest)) = some (.token ⟨kind, c :: text⟩) ↔ _
  rw [Option.some.injEq]
  rcases pieceAt_cases c (text ++ rest) with
    ⟨hspace, hpiece⟩ | ⟨inner, rfl, hinner, hpiece⟩ | ⟨hspace, hcomment, hpiece⟩
  · rw [hpiece, hspace]
    simp
  · rw [hpiece, hinner]
    simp [startsComment]
  · rw [hpiece, hspace, hcomment]
    generalize hread : readToken (c :: (text ++ rest)) = found
    obtain ⟨found, count⟩ := found
    simp only [Piece.token.injEq, Token.mk.injEq, List.cons.injEq, Prod.mk.injEq, true_and]
    refine and_congr_right fun hkind => ?_
    obtain rfl := hkind
    obtain ⟨hpos, hle⟩ := readToken_bounds hends hread
    constructor
    · intro htake
      have hlength := congrArg List.length htake
      rw [List.length_take] at hlength
      omega
    · rintro rfl
      rw [Nat.add_sub_cancel, List.take_left]

/-- White space ends a token that it cannot belong to, whatever stood there before. -/
theorem Token.ReadsAs.of_space {token : Token} (h : token.ReadsAs rest)
    (hends : token.endsAtSpace = true) (hother : SpaceLed other) : token.ReadsAs other := by
  obtain ⟨kind, text⟩ := token
  cases text with
  | nil => exact absurd h not_readsAs_nil
  | cons c text =>
      have hkind := (Bool.and_eq_true_iff.1 hends).1
      rw [readsAs_cons_iff hkind] at h ⊢
      obtain ⟨hspace, hcomment, hread⟩ := h
      refine ⟨hspace, ?_, readToken_space hother hends hread⟩
      cases text with
      | nil => exact startsComment_space hother
      | cons d text => exact startsComment_cons_cons hcomment _

end Reading

end MiniProgram.Style
