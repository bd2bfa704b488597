import MiniProgram.Proofs.Style.Ending
import MiniProgram.Proofs.Style.Lines

/-!
# What compaction does to tokens

Compaction takes out comments and trims lines without looking for tokens. Read `compact_eq_layout`
first: where no token holds the start of a comment or a line to be trimmed (`Firm`), what remains
are the tokens with the white space between them (`layout`), and where no white space is, they
touch. So `tokens_compact_iff_distinct` has to ask only of tokens that touch another one whether
they are still read as before. A string that holds the start of a comment is cut
(`tokens_compact_ne`).
-/

namespace MiniProgram.Style

open Text

variable {text front back gap rest : List Char} {c d : Char} {token : Token} {found : List Piece}
  {items : List (List Char × Token)}

section Comments

/-- A place in a text, in front of `rest`, where a comment seems to start. -/
def holdsComment : List Char → List Char → Bool
  | [], _ => false
  | c :: text, rest => startsComment (c :: (text ++ rest)) || holdsComment text rest

/-- What remains of a piece without comments. -/
def Piece.bare : Piece → List Char
  | .space text => text
  | .comment _ => []
  | .token token => token.text

/-- Pieces whose tokens hold no start of a comment, and no lines to be trimmed. -/
def Firm : List Piece → Prop
  | [] => True
  | .token token :: back =>
    holdsComment token.text (textOf back) = false ∧ tidy token.text = token.text ∧ Firm back
  | .space _ :: back | .comment _ :: back => Firm back

/-- Whether pieces are firm is decided by evaluation. -/
instance : (found : List Piece) → Decidable (Firm found)
  | [] => inferInstanceAs (Decidable True)
  | .token _ :: back =>
    have := instDecidableFirm back
    inferInstanceAs (Decidable (_ ∧ _ ∧ _))
  | .space _ :: back | .comment _ :: back => instDecidableFirm back

/-- A character with which no comment starts stays. -/
theorem stripComments_cons (h : startsComment (c :: text) = false) :
    stripComments (c :: text) = c :: stripComments text := by
  rw [stripComments]
  rintro inner rfl rfl
  cases h

/-- A text in which no comment starts stays. -/
theorem stripComments_append (h : holdsComment front rest = false) :
    stripComments (front ++ rest) = front ++ stripComments rest := by
  induction front with
  | nil => rfl
  | cons c front ih =>
      obtain ⟨hstart, hfront⟩ := Bool.or_eq_false_iff.1 h
      rw [List.cons_append, stripComments_cons hstart, ih hfront, List.cons_append]

/-- What is behind a comment is what its length leaves. -/
theorem afterComment_eq (text : List Char) :
    afterComment text = text.drop (commentLength text) := by
  fun_induction commentLength text with
  | case1 => rfl
  | case2 rest => rfl
  | case3 c rest hend ih =>
      rw [afterComment, ih]
      · rfl
      · exact hend

/-- What the first piece of a text can be, and what it holds. -/
theorem first?_cases {piece : Piece} (h : first? (piece.text ++ rest) = some piece) :
    (∃ gap, piece = .space gap ∧ ∀ c ∈ gap, isSpace c = true) ∨
      (∃ body, piece = .comment ('/' :: '*' :: body) ∧ afterComment (body ++ rest) = rest) ∨
      ∃ token c tail, piece = .token token ∧ token.text = c :: tail ∧ isSpace c = false := by
  cases htext : piece.text ++ rest with
  | nil =>
      rw [htext] at h
      cases h
  | cons c tail =>
      rw [htext, first?, Option.some.injEq] at h
      rcases pieceAt_cases c tail with ⟨hc, hspace⟩ | ⟨inner, rfl, rfl, hcomment⟩ | ⟨hc, -, htoken⟩
      · refine .inl ⟨_, h.symm.trans hspace, List.forall_mem_cons.2 ⟨hc, fun d hd => ?_⟩⟩
        exact List.all_eq_true.1 List.all_takeWhile d hd
      · refine .inr (.inl ⟨_, h.symm.trans hcomment, ?_⟩)
        rw [h.symm.trans hcomment] at htext
        have hinner : inner.take (commentLength inner) ++ rest = inner := by
          simpa [Piece.text] using htext
        have hrest : rest = inner.drop (commentLength inner) :=
          List.append_cancel_left (hinner.trans (List.take_append_drop _ _).symm)
        rw [hinner, afterComment_eq, hrest]
      · exact .inr (.inr ⟨_, c, _, h.symm.trans htoken, rfl, hc⟩)

/-- No comment starts in white space. -/
theorem holdsComment_of_space (h : ∀ c ∈ front, isSpace c = true) (rest : List Char) :
    holdsComment front rest = false := by
  induction front with
  | nil => rfl
  | cons c front ih =>
      obtain ⟨hc, hfront⟩ := List.forall_mem_cons.1 h
      have hstart : startsComment (c :: (front ++ rest)) = false := by
        unfold startsComment
        split
        · next heq =>
            obtain ⟨rfl, -⟩ := List.cons.inj heq
            cases hc
        · rfl
      rw [holdsComment, hstart, ih hfront]
      rfl

/-- Comments are taken out where they stand. -/
theorem stripComments_eq (h : pieces text = found) (hfirm : Firm found) :
    stripComments text = found.flatMap Piece.bare := by
  induction found generalizing text with
  | nil =>
      rw [← textOf_pieces text, h, textOf, List.flatMap_nil, stripComments]
      rfl
  | cons piece back ih =>
      obtain ⟨rfl, hfirst, hback⟩ := exists_of_pieces h
      rw [List.flatMap_cons]
      rcases first?_cases hfirst with ⟨gap, rfl, hgap⟩ | ⟨body, rfl, hbody⟩ | ⟨token, -, -, rfl, -⟩
      · show stripComments (gap ++ textOf back) = gap ++ back.flatMap Piece.bare
        rw [stripComments_append (holdsComment_of_space hgap _), ih hback hfirm]
      · show stripComments ('/' :: '*' :: (body ++ textOf back)) = back.flatMap Piece.bare
        rw [stripComments, hbody, ih hback hfirm]
      · show stripComments (token.text ++ textOf back) = token.text ++ back.flatMap Piece.bare
        obtain ⟨hquiet, -, hfirm⟩ := hfirm
        rw [stripComments_append hquiet, ih hback hfirm]

end Comments

section Layout

/-- The tokens among pieces, each with the white space between it and the one before. `gap` stands
in front of the pieces. -/
def spaced : List Char → List Piece → List (List Char × Token)
  | _, [] => []
  | gap, .space text :: back => spaced (gap ++ text) back
  | gap, .comment _ :: back => spaced gap back
  | gap, .token token :: back => (gap, token) :: spaced [] back

/-- Tokens as compaction lays them out, with what it makes of the white space between them. -/
def layout (items : List (List Char × Token)) : List Char :=
  items.flatMap fun item => joint item.1 ++ item.2.text

/-- Tokens without the white space in front of the first one. -/
def flush : List (List Char × Token) → List (List Char × Token)
  | [] => []
  | (_, token) :: later => ([], token) :: later

/-- A piece as it can be read: white space is white space, and no token starts with it. -/
def Piece.Proper : Piece → Prop
  | .space gap => ∀ c ∈ gap, isSpace c = true
  | .comment _ => True
  | .token token => ∃ c tail, token.text = c :: tail ∧ isSpace c = false

/-- The pieces that a text is cut into are proper ones. -/
theorem proper_of_pieces (h : pieces text = found) : ∀ piece ∈ found, piece.Proper := by
  induction found generalizing text with
  | nil => simp
  | cons piece back ih =>
      obtain ⟨rfl, hfirst, hback⟩ := exists_of_pieces h
      refine List.forall_mem_cons.2 ⟨?_, ih hback⟩
      rcases first?_cases hfirst with
        ⟨gap, rfl, hgap⟩ | ⟨body, rfl, -⟩ | ⟨token, c, tail, rfl, htext, hc⟩
      · exact hgap
      · trivial
      · exact ⟨c, tail, htext, hc⟩

/-- More white space among blanks is blank. -/
theorem isBlank_of_mem_append (hgap : ∀ b ∈ gap, isBlank b = true)
    (htext : ∀ b ∈ text, isSpace b = true) : ∀ b ∈ gap ++ text, isBlank b = true := by
  intro b hb
  rcases List.mem_append.1 hb with hb | hb
  · exact hgap b hb
  · exact isBlank_of_isSpace (htext b hb)

/-- A text that is not changed by trimming lines has no blanks at its ends. -/
theorem exists_ends (hne : text ≠ []) (htidy : tidy text = text) :
    (∃ c tail, text = c :: tail ∧ isBlank c = false) ∧
      ∃ start c, text = start ++ [c] ∧ isBlank c = false := by
  have hfirst := isBlank_head?_tidy text
  have hlast := isBlank_getLast?_tidy text
  rw [htidy] at hfirst hlast
  constructor
  · obtain ⟨c, tail, rfl⟩ := List.exists_cons_of_ne_nil hne
    exact ⟨c, tail, rfl, hfirst c rfl⟩
  · obtain rfl | ⟨start, c, rfl⟩ := List.eq_nil_or_concat text
    · exact absurd rfl hne
    · rw [List.concat_eq_append] at hlast ⊢
      exact ⟨start, c, rfl, hlast c (by simp)⟩

/-- What stands behind a character that is no blank is laid out behind it. -/
theorem tidy_append_bare (hc : isBlank c = false) (hgap : ∀ b ∈ gap, isBlank b = true)
    (hproper : ∀ piece ∈ found, piece.Proper) (hfirm : Firm found) (front : List Char) :
    tidy (front ++ c :: (gap ++ found.flatMap Piece.bare)) =
      tidy (front ++ [c]) ++ layout (spaced gap found) := by
  induction found generalizing front c gap with
  | nil =>
      rw [List.flatMap_nil, List.append_nil, List.append_cons, tidy_append_blanks hgap]
      exact (List.append_nil _).symm
  | cons piece back ih =>
      obtain ⟨hpiece, hback⟩ := List.forall_mem_cons.1 hproper
      rw [List.flatMap_cons, ← List.append_assoc]
      cases piece with
      | space text =>
          exact ih hc (isBlank_of_mem_append hgap hpiece) hback hfirm front
      | comment text =>
          rw [show gap ++ (Piece.comment text).bare = gap from List.append_nil gap]
          exact ih hc hgap hback hfirm front
      | token token =>
          obtain ⟨-, htidy, hfirm⟩ := hfirm
          obtain ⟨_, _, hstart, -⟩ := hpiece
          obtain ⟨⟨d, tail, htext, hd⟩, start, e, hlast, he⟩ :=
            exists_ends (hstart ▸ List.cons_ne_nil _ _) htidy
          have hrest : tidy (token.text ++ back.flatMap Piece.bare) =
              token.text ++ layout (spaced [] back) := by
            have hbehind := ih he (List.forall_mem_nil _) hback hfirm start
            rwa [← hlast, htidy, List.nil_append, List.append_cons, ← hlast] at hbehind
          calc tidy (front ++ c :: (gap ++ token.text ++ back.flatMap Piece.bare))
              = tidy (front ++ [c]) ++ joint gap ++
                  tidy (token.text ++ back.flatMap Piece.bare) := by
                rw [htext, List.append_assoc, List.cons_append]
                exact tidy_append hc hd hgap front _
            _ = tidy (front ++ [c]) ++ layout (spaced gap (.token token :: back)) := by
                rw [hrest, spaced, layout, layout, List.flatMap_cons]
                simp only [List.append_assoc]

/-- Trimming lines lays out the tokens, without white space in front of the first one. -/
theorem tidy_bare (hgap : ∀ b ∈ gap, isBlank b = true)
    (hproper : ∀ piece ∈ found, piece.Proper) (hfirm : Firm found) :
    tidy (gap ++ found.flatMap Piece.bare) = layout (flush (spaced gap found)) := by
  induction found generalizing gap with
  | nil =>
      rw [List.flatMap_nil, tidy_blanks_append hgap]
      rfl
  | cons piece back ih =>
      obtain ⟨hpiece, hback⟩ := List.forall_mem_cons.1 hproper
      rw [List.flatMap_cons, ← List.append_assoc]
      cases piece with
      | space text =>
          exact ih (isBlank_of_mem_append hgap hpiece) hback hfirm
      | comment text =>
          rw [show gap ++ (Piece.comment text).bare = gap from List.append_nil gap]
          exact ih hgap hback hfirm
      | token token =>
          obtain ⟨-, htidy, hfirm⟩ := hfirm
          obtain ⟨_, _, hstart, -⟩ := hpiece
          obtain ⟨-, start, e, hlast, he⟩ := exists_ends (hstart ▸ List.cons_ne_nil _ _) htidy
          have hbehind := tidy_append_bare he (List.forall_mem_nil _) hback hfirm start
          rw [← hlast, htidy, List.nil_append, List.append_cons, ← hlast] at hbehind
          rw [List.append_assoc, tidy_blanks_append hgap, spaced, flush, layout, List.flatMap_cons]
          exact hbehind

/-- Where all tokens are firm, compaction leaves them, and of what is between them white space. -/
theorem compact_eq_layout (h : pieces text = found) (hfirm : Firm found) :
    compact text = layout (flush (spaced [] found)) := by
  have hbare := tidy_bare (List.forall_mem_nil _) (proper_of_pieces h) hfirm
  rwa [List.nil_append, ← stripComments_eq h hfirm] at hbare

end Layout

section Reading

/-- Tokens that are read one after the other as they are laid out. -/
def Unglued : List (List Char × Token) → Prop
  | [] => True
  | (_, token) :: later => token.ReadsAs (layout later) ∧ Unglued later

/-- Whether tokens are read one after the other is decided by evaluation. -/
instance : (items : List (List Char × Token)) → Decidable (Unglued items)
  | [] => inferInstanceAs (Decidable True)
  | _ :: later =>
    have := instDecidableUnglued later
    inferInstanceAs (Decidable (_ ∧ _))

/-- Tokens with white space between them, as they can be read. -/
def Solid (items : List (List Char × Token)) : Prop :=
  ∀ item ∈ items, (∀ c ∈ item.1, isSpace c = true) ∧ (Piece.token item.2).Proper

/-- The tokens of proper pieces, with the white space between them, can be read. -/
theorem solid_spaced (hgap : ∀ c ∈ gap, isSpace c = true)
    (hproper : ∀ piece ∈ found, piece.Proper) : Solid (spaced gap found) := by
  induction found generalizing gap with
  | nil => exact List.forall_mem_nil _
  | cons piece back ih =>
      obtain ⟨hpiece, hback⟩ := List.forall_mem_cons.1 hproper
      cases piece with
      | space text => exact ih (List.forall_mem_append.2 ⟨hgap, hpiece⟩) hback
      | comment text => exact ih hgap hback
      | token token =>
          exact List.forall_mem_cons.2 ⟨⟨hgap, hpiece⟩, ih (List.forall_mem_nil _) hback⟩

/-- Putting white space between the tokens keeps the tokens. -/
theorem map_snd_spaced (gap : List Char) (found : List Piece) :
    (spaced gap found).map Prod.snd = found.filterMap Piece.token? := by
  induction found generalizing gap with
  | nil => rfl
  | cons piece back ih =>
      cases piece with
      | space text => exact ih _
      | comment text => exact ih _
      | token token => exact congrArg (token :: ·) (ih _)

/-- White space in front of a text holds no token. -/
theorem tokens_space_append (hgap : ∀ c ∈ gap, isSpace c = true)
    (htext : ∀ c ∈ text.head?, isSpace c = false) : tokens (gap ++ text) = tokens text := by
  cases gap with
  | nil => rfl
  | cons c gap =>
      obtain ⟨hc, hgap⟩ := List.forall_mem_cons.1 hgap
      have hend : text.takeWhile isSpace = [] := by
        cases text with
        | nil => rfl
        | cons d text => rw [List.takeWhile_cons_of_neg (by simp [htext d rfl])]
      have hfirst : first? ((Piece.space (c :: gap)).text ++ text) = some (.space (c :: gap)) := by
        show some (pieceAt c (gap ++ text)) = _
        rw [pieceAt, if_pos hc, List.takeWhile_append_of_pos hgap, hend, List.append_nil]
      rw [tokens, show c :: gap = (Piece.space (c :: gap)).text from rfl, pieces_of_first? hfirst]
      rfl

/-- What is left between two tokens is white space. -/
theorem isSpace_joint (hgap : ∀ c ∈ gap, isSpace c = true) : ∀ c ∈ joint gap, isSpace c = true := by
  unfold joint
  split
  · simp [isSpace, isFeed]
  · exact hgap

/-- The white space in front of the first token holds no token. -/
theorem tokens_layout_cons (hgap : ∀ c ∈ gap, isSpace c = true)
    (htoken : (Piece.token token).Proper) (items : List (List Char × Token)) :
    tokens (layout ((gap, token) :: items)) = tokens (token.text ++ layout items) := by
  obtain ⟨c, tail, htext, hc⟩ := htoken
  rw [layout, List.flatMap_cons, List.append_assoc]
  refine tokens_space_append (isSpace_joint hgap) ?_
  rw [htext]
  rintro _ ⟨⟩
  exact hc

/-- Without the white space in front of the first token the tokens are the same. -/
theorem tokens_layout_flush (h : Solid items) :
    tokens (layout (flush items)) = tokens (layout items) := by
  cases items with
  | nil => rfl
  | cons item later =>
      obtain ⟨⟨hgap, htoken⟩, -⟩ := List.forall_mem_cons.1 h
      rw [flush, tokens_layout_cons hgap htoken, tokens_layout_cons (List.forall_mem_nil _) htoken]

/-- The number of characters that are no white space. -/
def solidCount (text : List Char) : Nat :=
  text.countP fun c => !isSpace c

/-- The characters that are no white space are counted part by part. -/
theorem solidCount_append (front back : List Char) :
    solidCount (front ++ back) = solidCount front + solidCount back :=
  List.countP_append

/-- The text of tokens. -/
def spelled (tokens : List Token) : List Char :=
  tokens.flatMap Token.text

/-- What tokens hold is no more than what the text holds. -/
theorem spelled_tokens_sublist (text : List Char) : (spelled (tokens text)).Sublist text := by
  have hall : ∀ found : List Piece,
      (spelled (found.filterMap Piece.token?)).Sublist (textOf found) := by
    intro found
    induction found with
    | nil => exact .slnil
    | cons piece back ih =>
        rw [textOf_cons]
        cases piece with
        | space text => exact ih.trans (List.sublist_append_right _ _)
        | comment text => exact ih.trans (List.sublist_append_right _ _)
        | token token => exact ih.append_left token.text
  have hsublist := hall (pieces text)
  rwa [textOf_pieces] at hsublist

/-- A comment at the start holds more than the tokens do. -/
theorem solidCount_tokens_lt {body : List Char} {back : List Piece}
    (h : pieces text = .comment ('/' :: body) :: back) :
    solidCount (spelled (tokens text)) < solidCount text := by
  obtain ⟨rfl, -, hback⟩ := exists_of_pieces h
  have hsame :
      tokens ((Piece.comment ('/' :: body)).text ++ textOf back) = tokens (textOf back) := by
    rw [tokens, h, tokens, hback]
    rfl
  have hslash : 0 < solidCount ('/' :: body) := by
    rw [solidCount, List.countP_cons_of_pos (by decide)]
    omega
  have hle : solidCount (spelled (tokens (textOf back))) ≤ solidCount (textOf back) :=
    (spelled_tokens_sublist _).countP_le
  rw [hsame, solidCount_append, show (Piece.comment ('/' :: body)).text = '/' :: body from rfl]
  omega

/-- Laid out tokens hold all that their text holds. -/
theorem solidCount_layout (h : Solid items) :
    solidCount (layout items) = solidCount (spelled (items.map Prod.snd)) := by
  induction items with
  | nil => rfl
  | cons item later ih =>
      obtain ⟨⟨hgap, -⟩, hlater⟩ := List.forall_mem_cons.1 h
      have hjoint : solidCount (joint item.1) = 0 := by
        rw [solidCount, List.countP_eq_zero]
        intro c hc
        rw [isSpace_joint hgap c hc]
        decide
      calc solidCount (layout (item :: later))
          = solidCount (joint item.1) + solidCount item.2.text + solidCount (layout later) := by
            rw [layout, List.flatMap_cons, solidCount_append, solidCount_append]
            rfl
        _ = solidCount item.2.text + solidCount (spelled (later.map Prod.snd)) := by
            rw [hjoint, ih hlater, Nat.zero_add]
        _ = solidCount (spelled ((item :: later).map Prod.snd)) :=
            (solidCount_append _ _).symm

/-- Laid out tokens are the tokens of their text exactly if each of them is read where it stands. -/
theorem tokens_layout_iff (h : Solid items) :
    tokens (layout items) = items.map Prod.snd ↔ Unglued items := by
  induction items with
  | nil =>
      rw [layout, List.flatMap_nil, tokens, pieces]
      exact iff_of_true rfl trivial
  | cons item later ih =>
      obtain ⟨gap, token⟩ := item
      obtain ⟨⟨hgap, htoken⟩, hlater⟩ := List.forall_mem_cons.1 h
      rw [tokens_layout_cons hgap htoken, List.map_cons, Unglued, ← ih hlater]
      constructor
      · intro hsame
        obtain ⟨c, tail, htext, hc⟩ := htoken
        obtain ⟨back, hback, hpieces⟩ := pieces_cons c (tail ++ layout later)
        have hwhole : c :: (tail ++ layout later) = token.text ++ layout later := by
          rw [htext, List.cons_append]
        rw [hwhole] at hback hpieces
        rcases pieceAt_cases c (tail ++ layout later) with
          ⟨hspace, -⟩ | ⟨inner, rfl, -, hcomment⟩ | ⟨-, -, hread⟩
        · rw [hc] at hspace
          cases hspace
        · -- a comment would take characters away from the tokens
          rw [hcomment] at hpieces
          have hless := solidCount_tokens_lt hpieces
          have hspelled : solidCount (spelled (token :: later.map Prod.snd)) =
              solidCount (token.text ++ layout later) := by
            rw [solidCount_append, solidCount_layout hlater]
            exact solidCount_append _ _
          rw [hsame, hspelled] at hless
          exact absurd hless (Nat.lt_irrefl _)
        · rw [hread] at hpieces hback
          rw [tokens, hpieces] at hsame
          obtain ⟨heq, hlast⟩ := List.cons.inj hsame
          rw [heq] at hread hback
          obtain rfl := List.append_cancel_left hback
          refine ⟨?_, hlast⟩
          rw [Token.ReadsAs, ← hwhole, first?, hread]
      · rintro ⟨hfirst, hsame⟩
        have hpieces : pieces ((Piece.token token).text ++ layout later) = _ :=
          pieces_of_first? hfirst
        rw [← hsame, tokens, show token.text = (Piece.token token).text from rfl, hpieces]
        rfl

end Reading

section Parting

/-- Nothing, or white space in front of the next token. -/
def Parted (later : List (List Char × Token)) : Prop :=
  ∀ item ∈ later.head?, item.1 ≠ []

/-- Whether white space stands in front of the next token is decided by evaluation. -/
instance (later : List (List Char × Token)) : Decidable (Parted later) :=
  inferInstanceAs (Decidable (∀ item ∈ later.head?, _))

/-- Tokens that white space ends, or that are read in front of the ones they touch as before. -/
def Distinct : List (List Char × Token) → Prop
  | [] => True
  | (_, token) :: later =>
    (token.endsAtSpace = true ∧ Parted later ∨ token.ReadsAs (layout later)) ∧ Distinct later

/-- Whether tokens stay apart is decided by evaluation. -/
instance : (items : List (List Char × Token)) → Decidable (Distinct items)
  | [] => inferInstanceAs (Decidable True)
  | _ :: later =>
    have := instDecidableDistinct later
    inferInstanceAs (Decidable (_ ∧ _))

/-- Where there was white space there still is some. -/
theorem joint_ne_nil (hgap : gap ≠ []) : joint gap ≠ [] := by
  unfold joint
  split
  · exact List.cons_ne_nil _ _
  · exact hgap

/-- White space between tokens is still there when they are laid out. -/
theorem spaceLed_layout (h : Solid items) (hparted : Parted items) : SpaceLed (layout items) := by
  cases items with
  | nil =>
      intro c hc
      cases hc
  | cons item later =>
      obtain ⟨⟨hgap, -⟩, -⟩ := List.forall_mem_cons.1 h
      obtain ⟨c, back, hjoint⟩ := List.exists_cons_of_ne_nil (joint_ne_nil (hparted item rfl))
      have hspace := isSpace_joint hgap
      rw [hjoint] at hspace
      rw [layout, List.flatMap_cons, hjoint]
      rintro _ ⟨⟩
      exact hspace c List.mem_cons_self

/-- Tokens of a text that are distinct are read one after the other as they are laid out. -/
theorem unglued_iff_distinct (hgap : ∀ c ∈ gap, isSpace c = true) (h : pieces text = found) :
    Unglued (spaced gap found) ↔ Distinct (spaced gap found) := by
  induction found generalizing text gap with
  | nil => exact Iff.rfl
  | cons piece back ih =>
      obtain ⟨hpiece, hbehind⟩ := List.forall_mem_cons.1 (proper_of_pieces h)
      obtain ⟨rfl, hfirst, hback⟩ := exists_of_pieces h
      cases piece with
      | space text => exact ih (List.forall_mem_append.2 ⟨hgap, hpiece⟩) hback
      | comment text => exact ih hgap hback
      | token token =>
          have hread : token.ReadsAs (textOf back) := hfirst
          refine and_congr (iff_or_self.2 fun ⟨hends, hparted⟩ => ?_)
            (ih (List.forall_mem_nil _) hback)
          exact hread.of_space hends
            (spaceLed_layout (solid_spaced (List.forall_mem_nil _) hbehind) hparted)

/-- If no token of a stylesheet holds the start of a comment or a line to be trimmed, then the
compacted stylesheet has the same tokens exactly if each token that touches the next one, as only
comments stood between them or nothing, is read in front of it as before. -/
theorem tokens_compact_iff_distinct (hfirm : Firm (pieces text)) :
    tokens (compact text) = tokens text ↔ Distinct (spaced [] (pieces text)) := by
  have hsolid : Solid (spaced [] (pieces text)) :=
    solid_spaced (List.forall_mem_nil _) (proper_of_pieces rfl)
  calc tokens (compact text) = tokens text
      ↔ tokens (layout (spaced [] (pieces text))) = (spaced [] (pieces text)).map Prod.snd := by
        rw [compact_eq_layout rfl hfirm, tokens_layout_flush hsolid, map_snd_spaced]
        exact Iff.rfl
    _ ↔ Unglued (spaced [] (pieces text)) := tokens_layout_iff hsolid
    _ ↔ Distinct (spaced [] (pieces text)) := unglued_iff_distinct (List.forall_mem_nil _) rfl

/-- White space keeps what a comment separates apart, and a comment alone does not: the two type
selectors become one. -/
theorem tokens_compact_iff_distinct_comments :
    (Firm (pieces "a /* x */ b \x7b\n  color: red; /* y */\n\x7d\n".toList) ∧
      tokens (compact "a /* x */ b \x7b\n  color: red; /* y */\n\x7d\n".toList) =
        tokens "a /* x */ b \x7b\n  color: red; /* y */\n\x7d\n".toList) ∧
    Firm (pieces "a/**/b \x7b\x7d".toList) ∧
      tokens (compact "a/**/b \x7b\x7d".toList) ≠ tokens "a/**/b \x7b\x7d".toList := by
  have hspaced : Firm (pieces "a /* x */ b \x7b\n  color: red; /* y */\n\x7d\n".toList) := by
    decide +kernel
  have htouching : Firm (pieces "a/**/b \x7b\x7d".toList) := by
    decide +kernel
  refine ⟨⟨hspaced, (tokens_compact_iff_distinct hspaced).2 ?_⟩, htouching, ?_⟩
  · decide +kernel
  · rw [Ne, tokens_compact_iff_distinct htouching]
    decide +kernel

/-- In a string, what looks like a comment is taken out too, so a string in a complete stylesheet
can lose its content. -/
theorem tokens_compact_ne :
    ¬ ∀ text, Complete text → tokens (compact text) = tokens text := by
  intro h
  have hcomplete : Complete "a::after \x7b content: \"/* x */\"; \x7d".toList := by
    decide +kernel
  have hdiffer : tokens (compact "a::after \x7b content: \"/* x */\"; \x7d".toList) ≠
      tokens "a::after \x7b content: \"/* x */\"; \x7d".toList := by
    decide +kernel
  exact hdiffer (h _ hcomplete)

end Parting

end MiniProgram.Style
