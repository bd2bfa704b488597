import MiniProgram.Proofs.Style.Compaction
import MiniProgram.Proofs.Text.Mark

/-!
# Compacting twice

Compaction trims the lines of a stylesheet and drops blank ones once and for all
(`solidLines_tidy`). Comments it takes out in one reading, and what stood around them touches
afterwards. A slash and a star that come to touch in this way (`Splices`) start another comment.

Read `compact_normal_iff` first: unless there is such a splice, no comment starts in a compacted
stylesheet and compacting it again changes nothing. If there is one, a comment does start there, and
the second compaction takes out what stands behind it (`compact_reopens`).
-/

namespace MiniProgram.Style

open Text

/-- The mark that starts a comment. -/
def commentStart : List Char :=
  ['/', '*']

/-- The mark that ends a comment. -/
def commentEnd : List Char :=
  ['*', '/']

/-- A comment goes on up to the first closing mark behind its opening mark. -/
def IsComment (text : List Char) : Prop :=
  ∃ body, text = commentStart ++ (body ++ commentEnd) ∧ ¬ commentEnd <:+: body

/-- A text at whose end all comments are closed. -/
inductive EndsOutside : List Char → Prop where
  | nil : EndsOutside []
  | plain {c text} : ¬ commentStart <+: c :: text → EndsOutside text → EndsOutside (c :: text)
  | comment {comment text} : IsComment comment → EndsOutside text → EndsOutside (comment ++ text)

/-- `Splices css` says that nothing but comments stands between a slash and a star of `css` that are
outside of comments themselves. -/
def Splices (css : List Char) : Prop :=
  ∃ front comments back, EndsOutside front ∧ comments ≠ [] ∧
    (∀ comment ∈ comments, IsComment comment) ∧
    css = front ++ '/' :: (comments.flatten ++ '*' :: back)

section Stripping

variable {text body front rest : List Char} {c : Char}

/-- A character with which no comment starts stays. -/
theorem stripComments_plain (h : ¬ commentStart <+: c :: text) :
    stripComments (c :: text) = c :: stripComments text := by
  refine stripComments_cons (Bool.eq_false_iff.2 fun hstart => h ?_)
  unfold startsComment at hstart
  split at hstart
  · next heq =>
      obtain ⟨rfl, rfl⟩ := List.cons.inj heq
      exact pair_prefix_cons_iff.2 ⟨rfl, rfl⟩
  · cases hstart

/-- Induction along the way comments are taken out. -/
theorem strip_induction {motive : List Char → Prop} (nil : motive [])
    (comment : ∀ rest, motive (afterComment rest) → motive (commentStart ++ rest))
    (plain : ∀ c rest, ¬ commentStart <+: c :: rest → motive rest → motive (c :: rest))
    (css : List Char) : motive css := by
  fun_induction stripComments css with
  | case1 => exact nil
  | case2 rest ih => exact comment rest ih
  | case3 c rest hother ih =>
      refine plain c rest (fun hstart => ?_) ih
      obtain ⟨rfl, hstar⟩ := pair_prefix_cons_iff.1 hstart
      obtain ⟨rest, rfl⟩ := List.head?_eq_some_iff.1 hstar
      exact hother rest rfl rfl

/-- Behind the start of a comment the text goes on behind its end. -/
theorem stripComments_commentStart (rest : List Char) :
    stripComments (commentStart ++ rest) = stripComments (afterComment rest) := by
  rw [commentStart, List.cons_append, List.singleton_append, stripComments]

/-- A character of a comment at which it does not end is passed over. -/
theorem afterComment_cons (h : ¬ (c = '*' ∧ text.head? = some '/')) :
    afterComment (c :: text) = afterComment text := by
  rw [afterComment]
  rintro rest rfl rfl
  exact h ⟨rfl, rfl⟩

/-- A comment goes on up to its closing mark. -/
theorem afterComment_append (h : ¬ commentEnd <:+: body) (rest : List Char) :
    afterComment (body ++ (commentEnd ++ rest)) = rest := by
  induction body with
  | nil => rfl
  | cons c body ih =>
      rw [commentEnd, pair_infix_cons_iff, not_or] at h
      rw [List.cons_append, afterComment_cons, ih h.2]
      rintro ⟨hc, hhead⟩
      cases body with
      | nil => cases hhead
      | cons d body => exact h.1 ⟨hc, hhead⟩

/-- What is left behind a comment stands behind its closing mark. -/
theorem exists_of_afterComment_ne_nil (h : afterComment text ≠ []) :
    ∃ body, ¬ commentEnd <:+: body ∧ text = body ++ (commentEnd ++ afterComment text) := by
  fun_induction afterComment text with
  | case1 => exact absurd rfl h
  | case2 rest => exact ⟨[], by simp [commentEnd], rfl⟩
  | case3 c rest hother ih =>
      obtain ⟨body, hbody, hrest⟩ := ih h
      refine ⟨c :: body, ?_, by rw [List.cons_append, ← hrest]⟩
      rw [commentEnd, pair_infix_cons_iff, not_or]
      refine ⟨?_, hbody⟩
      rintro ⟨rfl, hhead⟩
      obtain ⟨body, rfl⟩ := List.head?_eq_some_iff.1 hhead
      exact hother _ rfl hrest

/-- A comment leaves nothing. -/
theorem IsComment.stripComments_append {comment : List Char} (h : IsComment comment)
    (rest : List Char) : stripComments (comment ++ rest) = stripComments rest := by
  obtain ⟨body, rfl, hbody⟩ := h
  rw [List.append_assoc, stripComments_commentStart, List.append_assoc, afterComment_append hbody]

/-- Comments in front of a text are taken out. -/
theorem stripComments_flatten_append {comments : List (List Char)}
    (h : ∀ comment ∈ comments, IsComment comment) (rest : List Char) :
    stripComments (comments.flatten ++ rest) = stripComments rest := by
  induction comments with
  | nil => rfl
  | cons comment comments ih =>
      obtain ⟨hcomment, hcomments⟩ := List.forall_mem_cons.1 h
      rw [List.flatten_cons, List.append_assoc, hcomment.stripComments_append, ih hcomments]

/-- Behind a text that ends outside of comments, comments are taken out as if it were not there. -/
theorem EndsOutside.stripComments_append (h : EndsOutside front) (hrest : rest.head? ≠ some '*') :
    stripComments (front ++ rest) = stripComments front ++ stripComments rest := by
  induction h with
  | nil => rw [stripComments]; rfl
  | @plain c text hplain _ ih =>
      have hwhole : ¬ commentStart <+: c :: (text ++ rest) := by
        rw [commentStart, pair_prefix_cons_iff] at hplain ⊢
        cases text with
        | nil => exact fun hstart => hrest hstart.2
        | cons d text => exact hplain
      rw [List.cons_append, stripComments_plain hwhole, stripComments_plain hplain, ih,
        List.cons_append]
  | comment hcomment _ ih =>
      rw [List.append_assoc, hcomment.stripComments_append, hcomment.stripComments_append, ih]

end Stripping

section Splicing

variable {text css : List Char} {c : Char}

/-- In front of a star that comes first, there was nothing but comments. -/
theorem exists_of_stripComments_eq_cons {kept : List Char} (h : stripComments css = '*' :: kept) :
    ∃ (comments : List (List Char)) (back : List Char),
      (∀ comment ∈ comments, IsComment comment) ∧ css = comments.flatten ++ '*' :: back := by
  induction css using strip_induction with
  | nil => rw [stripComments] at h; cases h
  | comment rest ih =>
      rw [stripComments_commentStart] at h
      obtain ⟨comments, back, hcomments, hbehind⟩ := ih h
      obtain ⟨body, hbody, hrest⟩ :=
        @exists_of_afterComment_ne_nil rest (by rw [hbehind]; simp)
      refine ⟨(commentStart ++ (body ++ commentEnd)) :: comments, back,
        List.forall_mem_cons.2 ⟨⟨body, rfl, hbody⟩, hcomments⟩, ?_⟩
      rw [hrest, hbehind]
      simp
  | plain c rest hplain _ =>
      rw [stripComments_plain hplain] at h
      exact ⟨[], rest, by simp, by rw [(List.cons.inj h).1]; rfl⟩

/-- A comment in front of a text that splices one changes nothing about that. -/
theorem Splices.append_comment {comment : List Char} (hcomment : IsComment comment)
    (h : Splices css) : Splices (comment ++ css) := by
  obtain ⟨front, comments, back, hfront, hne, hcomments, rfl⟩ := h
  exact ⟨comment ++ front, comments, back, .comment hcomment hfront, hne, hcomments, by simp⟩

/-- Nor does a character in front with which no comment starts. -/
theorem Splices.cons (hplain : ¬ commentStart <+: c :: css) (h : Splices css) :
    Splices (c :: css) := by
  obtain ⟨front, comments, back, hfront, hne, hcomments, rfl⟩ := h
  refine ⟨c :: front, comments, back, .plain (fun hstart => hplain ?_) hfront, hne, hcomments, rfl⟩
  exact hstart.trans (List.prefix_append (c :: front) _)

/-- Taking comments out leaves the start of a comment exactly where it splices one. -/
theorem infix_stripComments_iff (css : List Char) :
    commentStart <:+: stripComments css ↔ Splices css := by
  constructor
  · intro h
    induction css using strip_induction with
    | nil =>
        rw [stripComments] at h
        simp [commentStart] at h
    | comment rest ih =>
        rw [stripComments_commentStart] at h
        have hbehind := ih h
        obtain ⟨body, hbody, hrest⟩ := @exists_of_afterComment_ne_nil rest (by
          obtain ⟨front, comments, later, -, -, -, heq⟩ := hbehind
          rw [heq]
          simp)
        have hsplices := hbehind.append_comment ⟨body, rfl, hbody⟩
        rw [hrest]
        simpa using hsplices
    | plain c rest hplain ih =>
        rw [stripComments_plain hplain, List.infix_cons_iff] at h
        rcases h with hstart | h
        · obtain ⟨rfl, hstar⟩ := pair_prefix_cons_iff.1 hstart
          obtain ⟨kept, hkept⟩ := List.head?_eq_some_iff.1 hstar
          obtain ⟨comments, back, hcomments, rfl⟩ := exists_of_stripComments_eq_cons hkept
          refine ⟨[], comments, back, .nil, ?_, hcomments, rfl⟩
          rintro rfl
          exact hplain (pair_prefix_cons_iff.2 ⟨rfl, rfl⟩)
        · exact (ih h).cons hplain
  · rintro ⟨front, comments, back, hfront, hne, hcomments, rfl⟩
    -- behind the slash stands a comment, so the slash itself starts none
    have hslash : ¬ commentStart <+: '/' :: (comments.flatten ++ '*' :: back) := by
      obtain ⟨comment, others, rfl⟩ := List.exists_cons_of_ne_nil hne
      obtain ⟨body, hbody, -⟩ := hcomments comment List.mem_cons_self
      rw [commentStart, pair_prefix_cons_iff, List.flatten_cons, hbody]
      rintro ⟨-, hhead⟩
      cases hhead
    have hstar : ¬ commentStart <+: '*' :: back := by
      rw [commentStart, pair_prefix_cons_iff]
      rintro ⟨hc, -⟩
      cases hc
    rw [hfront.stripComments_append (by simp), stripComments_plain hslash,
      stripComments_flatten_append hcomments, stripComments_plain hstar]
    exact ⟨stripComments front, stripComments back, by simp [commentStart]⟩

/-- A text in which no comment starts is left alone. -/
theorem stripComments_eq_self (h : ¬ commentStart <:+: text) : stripComments text = text := by
  induction text using strip_induction with
  | nil => rw [stripComments]
  | comment rest => exact absurd (List.prefix_append commentStart rest).isInfix h
  | plain c rest hplain ih =>
      rw [stripComments_plain hplain, ih fun hrest => h (List.infix_cons hrest)]

/-- What is behind a comment is the end of the text. -/
theorem afterComment_suffix (text : List Char) : afterComment text <:+ text := by
  rw [afterComment_eq]
  exact List.drop_suffix _ _

/-- Taking comments out only leaves characters out. -/
theorem stripComments_sublist (text : List Char) : (stripComments text).Sublist text := by
  induction text using strip_induction with
  | nil => rw [stripComments]
  | comment rest ih =>
      rw [stripComments_commentStart]
      exact (ih.trans (afterComment_suffix rest).sublist).trans (List.sublist_append_right _ _)
  | plain c rest hplain ih =>
      rw [stripComments_plain hplain]
      exact ih.cons_cons c

/-- The star of a comment does not come back. -/
theorem count_stripComments_lt (h : commentStart <:+: text) :
    (stripComments text).count '*' < text.count '*' := by
  induction text using strip_induction with
  | nil => simp [commentStart] at h
  | comment rest =>
      have hbehind : (stripComments (afterComment rest)).count '*' ≤ rest.count '*' :=
        ((stripComments_sublist _).trans (afterComment_suffix rest).sublist).count_le '*'
      have hstart : (commentStart ++ rest).count '*' = rest.count '*' + 1 := by
        rw [List.count_append, Nat.add_comm]
        rfl
      rw [stripComments_commentStart, hstart]
      omega
  | plain c rest hplain ih =>
      have hrest := ih ((List.infix_cons_iff.1 h).resolve_left hplain)
      rw [stripComments_plain hplain, List.count_cons, List.count_cons]
      omega

end Splicing

section Lines

variable {line text : List Char} {c : Char}

/-- A line that is left is trimmed, and something is left of it. -/
theorem trim_of_mem_solidLines (h : line ∈ solidLines text) :
    line ≠ [] ∧ trim line = line ∧ '\n' ∉ line := by
  obtain ⟨hmem, hne⟩ := List.mem_filter.1 h
  obtain ⟨whole, hwhole, rfl⟩ := List.mem_map.1 hmem
  refine ⟨of_decide_eq_true hne, trim_trim whole, fun hfeed => ?_⟩
  exact not_mem_of_mem_splitOn hwhole ((trim_sublist whole).subset hfeed)

/-- Trimmed lines are taken apart into the same lines again. -/
theorem splitOn_tidy (h : tidy text ≠ []) : (tidy text).splitOn '\n' = solidLines text := by
  refine List.splitOn_intercalate '\n' (fun line hline => (trim_of_mem_solidLines hline).2.2) ?_
  intro hnone
  exact h (by rw [tidy, hnone]; rfl)

/-- Lines that are trimmed already are left as they are. -/
theorem solidLines_tidy (text : List Char) : solidLines (tidy text) = solidLines text := by
  have hsame : ((solidLines text).map trim).filter (· ≠ []) = solidLines text := by
    have hmap : (solidLines text).map trim = (solidLines text).map id :=
      List.map_congr_left fun line hline => (trim_of_mem_solidLines hline).2.1
    rw [hmap, List.map_id]
    exact List.filter_eq_self.2 fun line hline => decide_eq_true (trim_of_mem_solidLines hline).1
  by_cases hempty : tidy text = []
  · have hnone : solidLines text = [] := by
      cases hall : solidLines text with
      | nil => rfl
      | cons line lines =>
          have hline := trim_of_mem_solidLines (hall ▸ List.mem_cons_self : line ∈ solidLines text)
          refine absurd ?_ hline.1
          rw [tidy, hall] at hempty
          cases lines with
          | nil => simpa using hempty
          | cons next lines => simp [List.intercalate_cons_cons] at hempty
    rw [hempty, hnone]
    rfl
  · rw [solidLines, splitOn_tidy hempty, hsame]

/-- A trimmed text has nothing left to trim. -/
theorem tidy_tidy (text : List Char) : tidy (tidy text) = tidy text := by
  rw [tidy, solidLines_tidy, tidy]

/-- Trimming lines does not touch the start of a comment. -/
theorem infix_tidy_iff (text : List Char) :
    commentStart <:+: tidy text ↔ commentStart <:+: text := by
  have hlines := @pair_infix_intercalate_iff '/' '*' '\n' (by decide) (by decide)
  have htrim := @pair_infix_trim_iff '/' '*' (by decide) (by decide)
  have hjoin : ['\n'].intercalate (text.splitOn '\n') = text := List.intercalate_splitOn '\n'
  conv => rhs; rw [← hjoin]
  rw [commentStart, tidy, hlines, hlines]
  constructor
  · rintro ⟨line, hline, hstart⟩
    obtain ⟨hmem, -⟩ := List.mem_filter.1 hline
    obtain ⟨whole, hwhole, rfl⟩ := List.mem_map.1 hmem
    exact ⟨whole, hwhole, (htrim whole).1 hstart⟩
  · rintro ⟨whole, hwhole, hstart⟩
    have hstart := (htrim whole).2 hstart
    refine ⟨trim whole, List.mem_filter.2 ⟨List.mem_map_of_mem hwhole, ?_⟩, hstart⟩
    refine decide_eq_true fun hempty => ?_
    rw [hempty] at hstart
    simp at hstart

/-- Trimming a text takes out blanks alone. -/
theorem count_trim (hc : isBlank c = false) (text : List Char) :
    (trim text).count c = text.count c := by
  have hnone {gap : List Char} (hgap : ∀ d ∈ gap, isBlank d = true) : gap.count c = 0 := by
    refine List.count_eq_zero.2 fun hmem => ?_
    rw [hgap c hmem] at hc
    cases hc
  obtain ⟨front, back, hfront, hback, htext⟩ := exists_gaps text
  conv => rhs; rw [htext]
  rw [List.count_append, List.count_append, hnone hfront, hnone hback, Nat.zero_add, Nat.add_zero]

/-- Line feeds between lines add no other character. -/
theorem count_intercalate (hc : isBlank c = false) (lines : List (List Char)) :
    (['\n'].intercalate lines).count c = lines.flatten.count c := by
  induction lines with
  | nil => rfl
  | cons line lines ih =>
      cases lines with
      | nil => simp
      | cons next lines =>
          rw [List.intercalate_cons_cons, List.count_append, List.count_append, ih,
            List.count_cons_of_ne (feed_ne hc), List.count_nil, Nat.add_zero,
            ← List.count_append, ← List.flatten_cons]

/-- No character but blanks gets lost when lines are trimmed. -/
theorem count_tidy (hc : isBlank c = false) (text : List Char) :
    (tidy text).count c = text.count c := by
  have hkept (lines : List (List Char)) :
      ((lines.map trim).filter (· ≠ [])).flatten.count c = lines.flatten.count c := by
    induction lines with
    | nil => rfl
    | cons line lines ih =>
        rw [List.flatten_cons, List.count_append, ← ih, ← count_trim hc line, List.map_cons,
          List.filter_cons]
        by_cases hempty : trim line = [] <;> simp [hempty]
  calc (tidy text).count c
      = (text.splitOn '\n').flatten.count c := by
        rw [tidy, count_intercalate hc, solidLines, hkept]
    _ = text.count c := by rw [← count_intercalate hc, List.intercalate_splitOn]

end Lines

section Compacting

/-- Compacting a stylesheet twice is the same as compacting it once exactly if no slash and no star
have come to touch where comments were taken out, and exactly then no comment starts in what is
left. In any case the lines of what is left are trimmed and none of them is empty. -/
theorem compact_normal_iff (css : List Char) :
    (compact (compact css) = compact css ↔ ¬ Splices css) ∧
      (commentStart <:+: compact css ↔ Splices css) ∧
      (compact css = [] ∨ ∀ line ∈ (compact css).splitOn '\n',
        line ≠ [] ∧ (∀ c ∈ line.head?, isBlank c = false) ∧
          ∀ c ∈ line.getLast?, isBlank c = false) := by
  have hcompact (text : List Char) : compact text = tidy (stripComments text) := rfl
  have hstart : commentStart <:+: compact css ↔ Splices css := by
    rw [hcompact, infix_tidy_iff, infix_stripComments_iff]
  refine ⟨?_, hstart, ?_⟩
  · rw [← hstart]
    constructor
    · intro hsame hagain
      -- the second compaction would lose a star
      have hfewer := count_stripComments_lt hagain
      have hstar := congrArg (List.count '*') hsame
      rw [hcompact (compact css), count_tidy (by decide)] at hstar
      omega
    · intro hnone
      rw [hcompact (compact css), stripComments_eq_self hnone, hcompact css, tidy_tidy]
  · by_cases hempty : compact css = []
    · exact .inl hempty
    · refine .inr fun line hline => ?_
      rw [hcompact, splitOn_tidy hempty] at hline
      obtain ⟨hne, htrim, hfeed⟩ := trim_of_mem_solidLines hline
      have htidy : tidy line = line := by
        rw [tidy, solidLines_of_line hfeed, htrim]
        simp [hne]
      have hfirst := isBlank_head?_tidy line
      have hlast := isBlank_getLast?_tidy line
      rw [htidy] at hfirst hlast
      exact ⟨hne, hfirst, hlast⟩

/-- The comment between the slash and the star of a value goes, and the two of them start another
one, which hides the rules behind it and is taken out with them the next time. -/
theorem compact_reopens :
    compact ".a \x7b --x: 1 //**/* 2; \x7d\n.b \x7b color: red; \x7d".toList =
        ".a \x7b --x: 1 /* 2; \x7d\n.b \x7b color: red; \x7d".toList ∧
      compact ".a \x7b --x: 1 /* 2; \x7d\n.b \x7b color: red; \x7d".toList =
        ".a \x7b --x: 1".toList := by
  decide +kernel

end Compacting

end MiniProgram.Style
